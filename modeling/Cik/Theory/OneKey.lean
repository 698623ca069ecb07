import Cik.Library.Histories
import Cik.Theory.Placement
import Cik.Theory.DelAndSet

/-!
# Overlapping requests of one key

Requests that get, set and delete one key are handled by any number of workers; which
worker handles which is of no matter. A step is a search of the map, with what it changes
there, or the unlocking of an entry. An entry that a request has locked keeps the searches
of the others waiting that come to it. To the clients the key should be bound to a value
or not (`keyObject`), and each request be served at one moment. It is served by its first
search. But a DEL searches again, and what it finds then it removes too: a SET that came
after the removal was seen is undone (`not_linearizable`). When no DEL finds anything in
its later searches, and a DEL that removes an entry removes the only one of the key, all
histories are linearizable (`linearizable_of_settled`); the second condition is met when
the key has one entry at most in the beginning, where a SET puts it
(`linearizable_of_not_again`). Nothing expires, and memory can be reserved.
-/

namespace Cik

open Probing CacheEntryHashMap

/-- A request of a key. The value of a SET fits the payload buffers, since its entry is not larger
than a bucket. -/
inductive KeyOp (key : CacheKey) where
  /-- A GET. -/
  | get
  /-- A SET, with its entry. -/
  | set (entry : CacheEntry) (hkey : entry.key = key)
      (hsmall : entry.value.length ≤ MAX_BUCKET_SIZE)
  /-- A DEL. -/
  | del

/-- What is answered: the status, and the payload. -/
abbrev KeyAnswer := StatusCode × List UInt8

/-- A key that is bound to a value, or not bound: what it answers to a request, and what it is
then. -/
def keyObject {key : CacheKey} (v : Option CacheValue) : KeyOp key → Option CacheValue × KeyAnswer
  | .get => (v, v.elim (.notFound, []) fun v => (.ok, v))
  | .set entry _ _ => (some entry.value, .ok, [])
  | .del => (none, v.elim (.notFound, []) fun _ => (.ok, []))

/-! ### The workers -/

/-- The map of the key. -/
structure KeyTable where
  /-- The map. -/
  map : CacheEntryHashMap
  /-- The slots with entries that a request has locked. -/
  locked : Fin CACHE_ENTRY_MAP_SIZE → Bool

/-- Where the worker of a request is. -/
inductive KeyLoc where
  /-- The request has not been called. -/
  | waiting
  /-- At its first search. -/
  | start
  /-- GET: it copies the value of the entry in this slot. -/
  | reading (pos : Fin CACHE_ENTRY_MAP_SIZE) (answer : KeyAnswer)
  /-- SET: its entry is in this slot, and it changes the key lists. -/
  | storing (pos : Fin CACHE_ENTRY_MAP_SIZE)
  /-- DEL: it has removed an entry, and is at the next search. -/
  | deleting
  /-- It is about to answer. -/
  | answering (answer : KeyAnswer)
  /-- It has answered. -/
  | returned (answer : KeyAnswer)

/-- What a worker does. -/
inductive KeyEvent where
  /-- It is given the request. -/
  | call
  /-- `lock_and_get_cache_entry` of a GET. -/
  | get
  /-- `set_locked_cache_entry` of a SET. -/
  | map
  /-- The first `lock_and_unset_cache_entry` of a DEL. -/
  | unmap
  /-- Another one. -/
  | again
  /-- It unlocks an entry. -/
  | unlock
  /-- It answers. -/
  | ret (answer : KeyAnswer)

/-- What a GET answers when it has found an entry. -/
def hitAnswer (e : CacheEntry) : KeyAnswer :=
  if MAX_BUCKET_SIZE < e.value.length then (.bug, []) else (.ok, e.value)

/-- The entry that a search for the key finds is not locked. -/
def KeyTable.Free (t : KeyTable) (key : CacheKey) : Prop :=
  ∀ pos e, lockAndGetCacheEntry t.map key = some (pos, e) → t.locked pos = false

/-- The steps. -/
inductive KeyStep {ι : Type*} {key : CacheKey} (op : ι → KeyOp key) :
    ι → KeyTable → KeyLoc → KeyEvent → KeyTable → KeyLoc → Prop where
  /-- The request is called. -/
  | call {i : ι} {t : KeyTable} : KeyStep op i t .waiting .call t .start
  /-- A GET finds an entry. -/
  | hit {i : ι} {t : KeyTable} {pos : Fin CACHE_ENTRY_MAP_SIZE} {e : CacheEntry} (hop : op i = .get)
      (h : lockAndGetCacheEntry t.map key = some (pos, e)) (hfree : t.locked pos = false) :
      KeyStep op i t .start .get { t with locked := Function.update t.locked pos true }
        (.reading pos (hitAnswer e))
  /-- It finds none. -/
  | miss {i : ι} {t : KeyTable} (hop : op i = .get) (h : lockAndGetCacheEntry t.map key = none) :
      KeyStep op i t .start .get t (.answering (.notFound, []))
  /-- It unlocks the entry. -/
  | read {i : ι} {t : KeyTable} {pos : Fin CACHE_ENTRY_MAP_SIZE} {answer : KeyAnswer} :
      KeyStep op i t (.reading pos answer) .unlock
        { t with locked := Function.update t.locked pos false } (.answering answer)
  /-- A SET maps its entry, and releases the one that it replaces. -/
  | map {i : ι} {t : KeyTable} {entry : CacheEntry} {hkey : entry.key = key}
      {hsmall : entry.value.length ≤ MAX_BUCKET_SIZE} {old : Option CacheEntry}
      {map : CacheEntryHashMap} {pos : Fin CACHE_ENTRY_MAP_SIZE}
      (hop : op i = .set entry hkey hsmall) (h : setLockedCacheEntry t.map entry = some (old, map))
      (hpos : slotFor t.map entry = some pos) (hfree : t.locked pos = false) :
      KeyStep op i t .start .map ⟨map, Function.update t.locked pos true⟩ (.storing pos)
  /-- There is no slot for it. -/
  | full {i : ι} {t : KeyTable} {entry : CacheEntry} {hkey : entry.key = key}
      {hsmall : entry.value.length ≤ MAX_BUCKET_SIZE} (hop : op i = .set entry hkey hsmall)
      (h : setLockedCacheEntry t.map entry = none) :
      KeyStep op i t .start .map t (.answering (.outOfMemory, []))
  /-- It unlocks its entry. -/
  | stored {i : ι} {t : KeyTable} {pos : Fin CACHE_ENTRY_MAP_SIZE} :
      KeyStep op i t (.storing pos) .unlock { t with locked := Function.update t.locked pos false }
        (.answering (.ok, []))
  /-- A DEL unmaps the entry that it finds, and releases it. -/
  | unmap {i : ι} {t : KeyTable} {e : CacheEntry} {map : CacheEntryHashMap} (hop : op i = .del)
      (h : lockAndUnsetCacheEntry t.map key = some (e, map)) (hfree : t.Free key) :
      KeyStep op i t .start .unmap { t with map := map } .deleting
  /-- It finds none. -/
  | notFound {i : ι} {t : KeyTable} (hop : op i = .del)
      (h : lockAndUnsetCacheEntry t.map key = none) :
      KeyStep op i t .start .unmap t (.answering (.notFound, []))
  /-- It finds another one. -/
  | again {i : ι} {t : KeyTable} {e : CacheEntry} {map : CacheEntryHashMap}
      (h : lockAndUnsetCacheEntry t.map key = some (e, map)) (hfree : t.Free key) :
      KeyStep op i t .deleting .again { t with map := map } .deleting
  /-- It finds no other. -/
  | deleted {i : ι} {t : KeyTable} (h : lockAndUnsetCacheEntry t.map key = none) :
      KeyStep op i t .deleting .again t (.answering (.ok, []))
  /-- The request returns. -/
  | ret {i : ι} {t : KeyTable} {answer : KeyAnswer} :
      KeyStep op i t (.answering answer) (.ret answer) t (.returned answer)

/-- A DEL removes the only entry of the key, and finds no others later. -/
def KeyTable.Settled (t : KeyTable) (key : CacheKey) : KeyEvent → Prop
  | .unmap => ∀ p q, t.map.HoldsAt key p → t.map.HoldsAt key q → p = q
  | .again => t.map.current key = none
  | _ => True

/-! ### What the workers do to the key -/

/-- How far the request is. -/
def KeyLoc.phase : KeyLoc → Phase KeyAnswer
  | waiting => .waiting
  | start => .called
  | reading _ answer => .served answer
  | storing _ => .served (.ok, [])
  | deleting => .served (.ok, [])
  | answering answer => .served answer
  | returned answer => .returned answer

/-- What a step is to the key. -/
def KeyEvent.atomic : KeyEvent → AtomicEvent KeyAnswer
  | call => .call
  | get => .serve
  | map => .serve
  | unmap => .serve
  | again => .skip
  | unlock => .skip
  | ret answer => .ret answer

/-- The value that the key is bound to. -/
def KeyTable.value (t : KeyTable) (key : CacheKey) : Option CacheValue :=
  (t.map.current key).map CacheEntry.value

/-- There is room for an entry of the key, and the one that it has fits the payload buffers. -/
structure KeyTable.Ready (t : KeyTable) (key : CacheKey) : Prop where
  /-- A slot is free, or the key is in one. -/
  room : ∃ pos, t.map.OpenAt key pos
  /-- The value is not larger than a bucket. -/
  small : ∀ e, t.map.current key = some e → e.value.length ≤ MAX_BUCKET_SIZE

section Settled

variable {ι : Type*} {key : CacheKey} {op : ι → KeyOp key} {map map' : CacheEntryHashMap}
  {e : CacheEntry} {c c' : Threads ι KeyTable KeyLoc} {t t' : KeyTable}

theorem value_of_none (h : t.map.current key = none) : t.value key = none := by
  rw [KeyTable.value, h]
  rfl

theorem value_of_some (h : t.map.current key = some e) : t.value key = some e.value := by
  rw [KeyTable.value, h]
  rfl

/-- Every step of a worker is a step of the key that serves each request at once. -/
theorem KeyStep.atomic {i : ι} {a : KeyEvent} {p p' : KeyLoc} (hready : t.Ready key)
    (hset : t.Settled key a) (h : KeyStep op i t p a t' p') :
    t'.Ready key ∧
    AtomicStep keyObject op i (t.value key) p.phase a.atomic (t'.value key) p'.phase := by
  cases h with
  | call => exact ⟨hready, .call⟩
  | @hit pos e hop h hfree =>
    have hcur : t.map.current key = some e := by rw [current, h, Option.map_some]
    refine ⟨⟨hready.room, hready.small⟩, .serve ?_⟩
    rw [value_of_some hcur, hop, hitAnswer, if_neg (Nat.not_lt.mpr (hready.small e hcur))]
    exact congrArg (·, _) (value_of_some hcur).symm
  | miss hop h =>
    have hcur : t.map.current key = none := lockAndGetCacheEntry_eq_none_iff.mp h
    refine ⟨hready, .serve ?_⟩
    rw [value_of_none hcur, hop]
    rfl
  | read => exact ⟨⟨hready.room, hready.small⟩, .skip⟩
  | @map entry hkey hsmall old map pos hop h hpos hfree =>
    have hcur : map.current key = some entry := hkey ▸ setLockedCacheEntry_current h
    obtain ⟨q, hq, -⟩ := current_eq_some_iff.mp hcur
    refine ⟨⟨⟨q, Or.inr hq.1⟩, fun e he => ?_⟩, .serve ?_⟩
    · obtain rfl := Option.some.inj (hcur.symm.trans he)
      exact hsmall
    · rw [hop]
      exact congrArg (·, _) (value_of_some hcur).symm
  | @full entry hkey hsmall hop h =>
    obtain ⟨pos, hpos⟩ := hready.room
    exact absurd (hkey ▸ hpos) (setLockedCacheEntry_eq_none_iff.mp h pos)
  | stored => exact ⟨⟨hready.room, hready.small⟩, .skip⟩
  | @unmap e map hop h hfree =>
    have hcur : t.map.current key = some e := lockAndUnsetCacheEntry_current h
    obtain ⟨hroom, hnone⟩ := unset_alone hset h
    refine ⟨⟨hroom, by simp [hnone]⟩, .serve ?_⟩
    rw [value_of_some hcur, hop]
    exact congrArg (·, _) (value_of_none hnone).symm
  | notFound hop h =>
    have hcur : t.map.current key = none := lockAndUnsetCacheEntry_eq_none_iff.mp h
    refine ⟨hready, .serve ?_⟩
    rw [value_of_none hcur, hop]
    rfl
  | again h => cases (lockAndUnsetCacheEntry_eq_none_iff.mpr hset).symm.trans h
  | deleted h => exact ⟨hready, .skip⟩
  | ret => exact ⟨hready, .ret⟩

/-- What was seen of the workers. -/
def keyHistory (l : List (ι × KeyEvent)) : List (HistoryEvent ι KeyAnswer) :=
  historyOf (l.map fun a => (a.1, a.2.atomic))

/-- **Overlapping requests of one key.** In whatever order the workers take their steps, there is an
order of the requests in which the key that serves one after the other gives the same answers. -/
theorem linearizable_of_settled {l : List (ι × KeyEvent)} (hready : t.Ready key)
    (h : Run (Provided (fun c a => c.shared.Settled key a.2) (Threads.Step (KeyStep op)))
      ⟨t, fun _ => .waiting⟩ l c) :
    Linearizable keyObject op (t.value key) (keyHistory l) :=
  linearizable_of_steps (KeyTable.value · key) KeyLoc.phase KeyEvent.atomic
    (fun _ _ _ _ _ hset hready hs => KeyStep.atomic hready hset hs) h hready fun _ => rfl

/-! ### A key with one entry at most -/

/-- The key is in one slot at most, and no slot before it is free. -/
structure KeyTable.InPlace (t : KeyTable) (key : CacheKey) : Prop where
  /-- No key is in two slots. -/
  unique : t.map.KeysUnique
  /-- No slot before the key's is free. -/
  place : t.map.NoHoleBefore key

/-- A map in which the key is not. -/
theorem inPlace_of_none {locked : Fin CACHE_ENTRY_MAP_SIZE → Bool} (hu : map.KeysUnique)
    (h : map.current key = none) :
    KeyTable.InPlace ⟨map, locked⟩ key := by
  refine ⟨hu, fun pos e hget => ?_⟩
  rw [lockAndGetCacheEntry_eq_none_iff.mpr h] at hget
  cases hget

/-- A SET puts its entry in the place of the older one. -/
theorem set_inPlace {entry : CacheEntry} {old : Option CacheEntry} (hu : map.KeysUnique)
    (hn : map.NoHoleBefore entry.key) (h : setLockedCacheEntry map entry = some (old, map')) :
    map'.KeysUnique ∧ map'.NoHoleBefore entry.key := by
  obtain ⟨pos, hopen, rfl, hheld, -⟩ := setLockedCacheEntry_inPlace hu hn h
  have hu' : (map.put pos entry).KeysUnique := hu.update (e := Slot.ofEntry entry) rfl hopen.1 hheld
  refine ⟨hu', fun pos' e hget q hq => ?_⟩
  obtain rfl : pos' = pos :=
    hu' entry.key pos' pos (lockAndGetCacheEntry_eq_some_iff.mp hget).1.1
    (holdsAt_put.mpr (Or.inl rfl))
  have hne : q ≠ pos' := fun he => absurd (he ▸ hq) (lt_irrefl _)
  rw [put_slots, Function.update_of_ne hne]
  exact fun hnone => hopen.2 q hq (Or.inl hnone)

/-- Every step keeps it. -/
theorem KeyStep.inPlace {i : ι} {a : KeyEvent} {p p' : KeyLoc} (hplace : t.InPlace key)
    (h : KeyStep op i t p a t' p') :
    t'.InPlace key := by
  cases h with
  | hit => exact ⟨hplace.unique, hplace.place⟩
  | read => exact ⟨hplace.unique, hplace.place⟩
  | stored => exact ⟨hplace.unique, hplace.place⟩
  | @unmap e map hop h hfree =>
    obtain ⟨hu, hnone⟩ := unset_unique hplace.unique h
    exact inPlace_of_none hu hnone
  | @again e map h hfree =>
    obtain ⟨hu, hnone⟩ := unset_unique hplace.unique h
    exact inPlace_of_none hu hnone
  | @map entry hkey hsmall old map slot hop h hslot hfree =>
    obtain ⟨hu, hn⟩ := set_inPlace hplace.unique (hkey ▸ hplace.place) h
    exact ⟨hu, hkey ▸ hn⟩
  | _ => exact hplace

/-- When the key has one entry at most in the beginning, where a SET puts it, the requests are
served at one moment each if no DEL finds another entry in its later searches. -/
theorem linearizable_of_not_again {l : List (ι × KeyEvent)} (hready : t.Ready key)
    (hplace : t.InPlace key)
    (h : Run
      (Provided (fun c a => a.2 = .again → c.shared.map.current key = none)
        (Threads.Step (KeyStep op)))
      ⟨t, fun _ => .waiting⟩ l c) :
    Linearizable keyObject op (t.value key) (keyHistory l) := by
  have hsettled :
      Run (Provided (fun c a => c.shared.Settled key a.2) (Threads.Step (KeyStep op)))
      ⟨t, fun _ => .waiting⟩ l c := by
    refine h.provided_mono (I := fun c => c.shared.InPlace key) (fun c a hplace hagain => ?_)
      (fun _ _ _ hplace hs => hs.own.inPlace hplace) hplace
    cases ha : a.2 with
    | unmap => exact fun p q hp hq => hplace.unique key p q hp hq
    | again => exact hagain ha
    | _ => trivial
  exact linearizable_of_steps (KeyTable.value · key) KeyLoc.phase KeyEvent.atomic
    (fun _ _ _ _ _ hset hready hs => KeyStep.atomic hready hset hs) hsettled hready fun _ => rfl

end Settled

/-! ### A SET that a DEL undoes -/

section Undone

variable {key : CacheKey} {entry : CacheEntry}

/-- Four requests. -/
inductive FourRequests where
  /-- A DEL. -/
  | del
  /-- A GET. -/
  | early
  /-- A SET. -/
  | set
  /-- Another GET. -/
  | late
  deriving DecidableEq

/-- What they are. -/
def FourRequests.op (entry : CacheEntry) (hkey : entry.key = key)
    (hsmall : entry.value.length ≤ MAX_BUCKET_SIZE) :
    FourRequests → KeyOp key
  | del => .del
  | early => .get
  | set => .set entry hkey hsmall
  | late => .get

/-- While the DEL is handled, the key is found to be unbound, then it is set, and then it is found
to be unbound again. -/
def undoneHistory : List (HistoryEvent FourRequests KeyAnswer) :=
  [.call .del, .call .early, .ret .early (.notFound, []), .call .set,
    .ret .set (.ok, []), .call .late, .ret .late (.notFound, []), .ret .del (.ok, [])]

/-- A key is unbound after it was bound only if there was a DEL. -/
theorem exists_del {ι : Type*} {op : ι → KeyOp key} {order : List (ι × KeyAnswer)}
    {v v' : Option CacheValue} (h : Run (Serves keyObject op) v order v') (hv : v ≠ none)
    (hv' : v' = none) : ∃ a ∈ order, op a.1 = .del := by
  induction h with
  | nil v => exact absurd hv' hv
  | @cons v w v' a l hs _ ih =>
    cases hop : op a.1 with
    | del => exact ⟨a, List.mem_cons_self, hop⟩
    | get =>
      have hw : w = v := by
        rw [Serves, hop] at hs
        exact (Prod.mk.inj hs).1.symm
      obtain ⟨b, hb, hdel⟩ := ih (hw ▸ hv) hv'
      exact ⟨b, List.mem_cons_of_mem a hb, hdel⟩
    | set entry hkey hsmall =>
      have hw : w = some entry.value := by
        rw [Serves, hop] at hs
        exact (Prod.mk.inj hs).1.symm
      obtain ⟨b, hb, hdel⟩ := ih (hw ▸ Option.some_ne_none _) hv'
      exact ⟨b, List.mem_cons_of_mem a hb, hdel⟩

theorem unbound_of_notFound {ι : Type*} {op : ι → KeyOp key} {i : ι} {v v' : Option CacheValue}
    (hop : op i = .get) (h : Serves keyObject op v (i, (.notFound, [])) v') : v = none := by
  rw [Serves, hop] at h
  cases v with
  | none => rfl
  | some v => cases (Prod.mk.inj (Prod.mk.inj h).2).1

theorem not_linearizable_undone {hkey : entry.key = key}
    {hsmall : entry.value.length ≤ MAX_BUCKET_SIZE} {v : Option CacheValue} (hv : v ≠ none) :
    ¬ Linearizable keyObject (FourRequests.op entry hkey hsmall) v undoneHistory := by
  rintro ⟨order, hl⟩
  have hdel (i : FourRequests) (hi : i.op entry hkey hsmall = .del) : i = .del := by
    cases i with
    | del => rfl
    | _ => cases hi
  have hearly : Precedes undoneHistory .early .set :=
    ⟨undoneHistory.take 3, undoneHistory.drop 3, (.notFound, []), rfl,
      by simp [undoneHistory], by simp [undoneHistory]⟩
  have hset : Precedes undoneHistory .set .late :=
    ⟨undoneHistory.take 5, undoneHistory.drop 5, (.ok, []), rfl,
      by simp [undoneHistory], by simp [undoneHistory]⟩
  have hmem₁ := hl.returned .early (.notFound, []) (by simp [undoneHistory])
  have hmem₂ := hl.returned .set (.ok, []) (by simp [undoneHistory])
  -- the three requests are served in the order in which they returned
  obtain ⟨A, D, horder⟩ :=
    List.append_of_mem (hl.returned .late (.notFound, []) (by simp [undoneHistory]))
  obtain ⟨B, C, rfl⟩ := List.append_of_mem (hl.mem_before horder hset hmem₂ (by decide))
  rw [List.append_assoc, List.cons_append] at horder
  obtain ⟨A, B, rfl⟩ := List.append_of_mem (hl.mem_before horder hearly hmem₁ (by decide))
  rw [List.append_assoc, List.cons_append] at horder
  obtain ⟨s, hrun⟩ := hl.served
  have hnodup := hl.nodup
  rw [horder] at hrun hnodup
  obtain ⟨v₁, hA, hrun⟩ := hrun.split
  obtain _ | ⟨hs₁, hrun⟩ := hrun
  obtain ⟨v₂, hB, hrun⟩ := hrun.split
  obtain _ | ⟨hs₂, hrun⟩ := hrun
  obtain ⟨v₃, hC, hrun⟩ := hrun.split
  obtain _ | ⟨hs₃, -⟩ := hrun
  -- so the DEL is served before the first GET, and again after the SET
  obtain ⟨a, ha, hop⟩ := exists_del hA hv (unbound_of_notFound rfl hs₁)
  have hbound := (Prod.mk.inj hs₂).1 ▸ Option.some_ne_none entry.value
  obtain ⟨b, hb, hop'⟩ := exists_del hC hbound (unbound_of_notFound rfl hs₃)
  rw [List.map_append, List.nodup_append] at hnodup
  exact hnodup.2.2 a.1 (List.mem_map_of_mem ha) b.1 (List.mem_map_of_mem (by simp [hb]))
    ((hdel _ hop).trans (hdel _ hop').symm)

/-- A SET that finds a slot. -/
theorem exists_set {map : CacheEntryHashMap} (hroom : ∃ pos, map.OpenAt entry.key pos) :
    ∃ pos old map', slotFor map entry = some pos ∧
      setLockedCacheEntry map entry = some (old, map') := by
  obtain ⟨pos, hpos⟩ := exists_isFirst (homeSlot entry.key) hroom
  exact ⟨pos, _, _, DatedMap.slotFor_eq_some_iff.mpr hpos,
    setLockedCacheEntry_eq_some_iff.mpr ⟨pos, hpos, rfl, rfl⟩⟩

/-- From every state in which the key has one entry, the workers can come to this history. -/
theorem run_undone {map : CacheEntryHashMap} {e : CacheEntry} (hu : map.KeysUnique)
    (hcur : map.current key = some e) (hkey : entry.key = key)
    (hsmall : entry.value.length ≤ MAX_BUCKET_SIZE) : ∃ l c,
      Run (Threads.Step (KeyStep (FourRequests.op entry hkey hsmall)))
        ⟨⟨map, fun _ => false⟩, fun _ => .waiting⟩ l c ∧ keyHistory l = undoneHistory := by
  subst hkey
  obtain ⟨map₁, hun₁⟩ := exists_unset hcur
  obtain ⟨hu₁, hnone₁⟩ := unset_unique hu hun₁
  obtain ⟨hroom, -⟩ := unset_alone (hu entry.key) hun₁
  obtain ⟨pos, old, map₂, hslot, hset⟩ := exists_set hroom
  have hplace₁ : KeyTable.InPlace ⟨map₁, fun _ => false⟩ entry.key := inPlace_of_none hu₁ hnone₁
  obtain ⟨hu₂, -⟩ := set_inPlace hu₁ hplace₁.place hset
  obtain ⟨map₃, hun₂⟩ := exists_unset (setLockedCacheEntry_current hset)
  obtain ⟨-, hnone₃⟩ := unset_unique hu₂ hun₂
  have hfree (q : Fin CACHE_ENTRY_MAP_SIZE) :
      Function.update (Function.update (fun _ => false) pos true) pos false q = false := by
    by_cases hq : q = pos
    · simp [hq]
    · simp [hq]
  refine ⟨_, _, .cons (Threads.step_at .del rfl .call) <|
    .cons (Threads.step_at .del rfl (.unmap rfl hun₁ fun _ _ _ => rfl)) <|
    .cons (Threads.step_at .early rfl .call) <|
    .cons (Threads.step_at .early rfl (.miss rfl (lockAndGetCacheEntry_eq_none_iff.mpr hnone₁))) <|
    .cons (Threads.step_at .early rfl .ret) <|
    .cons (Threads.step_at .set rfl .call) <|
    .cons (Threads.step_at .set rfl (.map rfl hset hslot rfl)) <|
    .cons (Threads.step_at .set rfl .stored) <|
    .cons (Threads.step_at .set rfl .ret) <|
    .cons (Threads.step_at .del rfl (.again hun₂ fun q _ _ => hfree q)) <|
    .cons (Threads.step_at .late rfl .call) <|
    .cons (Threads.step_at .late rfl (.miss rfl (lockAndGetCacheEntry_eq_none_iff.mpr hnone₃))) <|
    .cons (Threads.step_at .late rfl .ret) <|
    .cons (Threads.step_at .del rfl (.deleted (lockAndUnsetCacheEntry_eq_none_iff.mpr hnone₃))) <|
    .cons (Threads.step_at .del rfl .ret) (.nil _), rfl⟩

/-- The older entry of the key, alone in its map, and not locked. -/
def tableOld : KeyTable := ⟨storeOld.mapOf keyK, fun _ => false⟩

theorem current_tableOld : tableOld.map.current keyK = some entryOld := current_storeOld

theorem tableOld_ready : tableOld.Ready keyK := by
  obtain ⟨pos, hpos, -⟩ := current_eq_some_iff.mp current_tableOld
  refine ⟨⟨pos, Or.inr hpos.1⟩, fun e he => ?_⟩
  obtain rfl := Option.some.inj (current_tableOld.symm.trans he)
  decide

theorem tableOld_inPlace : tableOld.InPlace keyK := ⟨storeOld_sound.unique _, noHoleBefore_storeOld⟩

/-- A step that meets the conditions. -/
theorem settled_step {op : FourRequests → KeyOp key} {c : Threads FourRequests KeyTable KeyLoc}
    {p p' : KeyLoc} {a : KeyEvent} {t' : KeyTable} (i : FourRequests) (hp : c.loc i = p)
    (h : KeyStep op i c.shared p a t' p') (hs : c.shared.Settled key a) :
    Provided (fun c a => c.shared.Settled key a.2) (Threads.Step (KeyStep op)) c (i, a)
      ⟨t', Function.update c.loc i p'⟩ :=
  ⟨hs, Threads.step_at i hp h⟩

/-- While a DEL is handled, the key is found to be unbound. -/
theorem linearizable_tableOld :
    Linearizable keyObject (FourRequests.op entryNew (rfl : entryNew.key = keyK) (by decide))
      (tableOld.value keyK) [.call .del, .call .early, .ret .early (.notFound, []),
        .ret .del (.ok, [])] := by
  obtain ⟨map, hun⟩ := exists_unset current_tableOld
  obtain ⟨-, hnone⟩ := unset_unique tableOld_inPlace.unique hun
  exact linearizable_of_settled tableOld_ready <| .cons (settled_step .del rfl .call trivial) <|
    .cons
      (settled_step .del rfl (.unmap rfl hun fun _ _ _ => rfl) (tableOld_inPlace.unique keyK)) <|
    .cons (settled_step .early rfl .call trivial) <|
    .cons
      (settled_step .early rfl (.miss rfl (lockAndGetCacheEntry_eq_none_iff.mpr hnone)) trivial) <|
    .cons (settled_step .early rfl .ret trivial) <|
    .cons (settled_step .del rfl (.deleted (lockAndUnsetCacheEntry_eq_none_iff.mpr hnone)) hnone) <|
    .cons (settled_step .del rfl .ret trivial) (.nil _)

/-- Not all histories are linearizable. -/
theorem not_linearizable : ¬ ∀ (key : CacheKey) (op : FourRequests → KeyOp key) (t : KeyTable)
    (l : List (FourRequests × KeyEvent)) (c : Threads FourRequests KeyTable KeyLoc), t.Ready key →
    t.InPlace key → (∀ pos, t.locked pos = false) →
    Run (Threads.Step (KeyStep op)) ⟨t, fun _ => .waiting⟩ l c →
    Linearizable keyObject op (t.value key) (keyHistory l) := by
  intro h
  have hkey : entryNew.key = keyK := rfl
  have hsmall : entryNew.value.length ≤ MAX_BUCKET_SIZE := by decide
  obtain ⟨l, c, hrun, hhistory⟩ := run_undone tableOld_inPlace.unique current_tableOld hkey hsmall
  have hl := h keyK _ tableOld l c tableOld_ready tableOld_inPlace (fun _ => rfl) hrun
  rw [hhistory, value_of_some current_tableOld] at hl
  exact not_linearizable_undone (Option.some_ne_none _) hl

end Undone

end Cik

import Cik.Theory.KeyMap
import Cik.Theory.Clearing
import Cik.Theory.Duplicates

/-!
# Start-up

`main` starts the server before it has `load_request_log` read the persistence file, so
the SET requests of the file and the requests of clients are handled in any order
(`StartUp.Step`). A record of the file is handled as any SET is: one that is read
after a client has set or deleted its key puts the persisted value back
(`StartUp.not_fromClient`). When no record of the key is read any more (`StartUp.NoRecord`), and
the client's SET leaves no other entry of the key behind, all entries of the key are clients' from
then on, and so is what a GET returns (`StartUp.fromClient_of_noRecord`).
-/

namespace Cik

open Probing

/-- Where a request comes from. -/
inductive Origin where
  /-- It is read by `load_request_log`. -/
  | file
  /-- It is a client's. -/
  | client
  deriving DecidableEq

/-- The server while the file is read. -/
structure StartUp where
  /-- The records that are not read yet. -/
  file : List Cmd
  /-- The store. -/
  store : Store

/-- The request sets the value of the key. -/
def Cmd.Sets (key : CacheKey) : Cmd → Prop
  | set key' _ _ _ => key' = key
  | _ => False

namespace StartUp

/-- A request of a client is handled, or the next record of the file. -/
inductive Step : StartUp → Origin × Answered → StartUp → Prop where
  /-- A client's request. -/
  | client {file : List Cmd} {s s' : Store} {a : Answered} : Answered.Step s a s' →
      Step ⟨file, s⟩ (.client, a) ⟨file, s'⟩
  /-- A record. -/
  | file {file : List Cmd} {s s' : Store} {a : Answered} : Answered.Step s a s' →
      Step ⟨a.served.cmd :: file, s⟩ (.file, a) ⟨file, s'⟩

/-- The values that clients have set a key to. -/
def clientValues (key : CacheKey) (l : List (Origin × Answered)) : List CacheValue :=
  l.filterMap fun a =>
    match a.1, a.2.served.cmd, a.2.status with
    | .client, .set key' _ value _, .ok => if key' = key then some value else none
    | _, _, _ => none

/-- What is handled is no record of the key, and a SET has a size that does not wrap. -/
def NoRecord (key : CacheKey) (_ : StartUp) (a : Origin × Answered) : Prop :=
  (a.1 = .file → ¬ a.2.served.cmd.Sets key) ∧ a.2.served.cmd.Sized

/-- A SET of the key leaves no other entry of it behind: it takes the only slot that holds the key,
if one does. -/
def Alone (s : Store) (key : CacheKey) : Prop :=
  ∀ pos, (s.mapOf key).HoldsAt key pos → IsFirst ((s.mapOf key).OpenAt key) (homeSlot key) pos

/-- It does so when the key is in no slot, or in one that no free slot comes before. -/
theorem alone_of_noHoleBefore {s : Store} {key : CacheKey} (hu : s.KeysUnique)
    (hn : (s.mapOf key).NoHoleBefore key) :
    Alone s key := by
  intro pos hpos
  have hfirst := (hu (getMapForKey key)).isFirst hpos (homeSlot key)
  obtain ⟨slot, hslot, -⟩ := id hpos
  have hget : lockAndGetCacheEntry (s.mapOf key) key = some (pos, slot.entry) :=
    lockAndGetCacheEntry_eq_some_iff.mpr ⟨hfirst, by simp [hslot]⟩
  exact ⟨Or.inr hpos, fun q hq ho => ho.elim (hn pos _ hget q hq) (hfirst.2 q hq)⟩

/-- All entries of the key have one of the values. -/
def Values (key : CacheKey) (values : List CacheValue) (s : Store) : Prop :=
  s.All fun i e => i = getMapForKey e.key → e.key = key → e.value ∈ values

variable {key : CacheKey} {l : List (Origin × Answered)} {s s' : Store} {a : Answered} {o : Origin}
  {values : List CacheValue}

/-- The state after a request, and its status. -/
theorem step_exec (h : Answered.Step s a s') :
    a.status = (a.served.cmd.exec a.served.env s).1 ∧ s' = (a.served.cmd.exec a.served.env s).2 :=
  ⟨h.2.1.trans (a.served.answers s).status, h.1.eq_exec⟩

theorem mem_clientValues_of_set {tags : List CacheTag} {value : CacheValue} {ttl : UInt32}
    (hc : a.served.cmd = .set key tags value ttl) (hok : a.status = .ok) :
    value ∈ clientValues key (l ++ [(.client, a)]) := by
  simp [clientValues, List.filterMap_append, hc, hok]

theorem clientValues_subset (l l' : List (Origin × Answered)) :
    clientValues key l ⊆ clientValues key (l ++ l') := by
  rw [clientValues, clientValues, List.filterMap_append]
  exact List.subset_append_left _ _

/-- A SET that is refused changes nothing. -/
theorem exec_set_refused {env : Env} {tags : List CacheTag} {value : CacheValue} {ttl : UInt32}
    (h : ((Cmd.set key tags value ttl).exec env s).1 ≠ .ok) :
    ((Cmd.set key tags value ttl).exec env s).2 = s := by
  simp only [Cmd.exec] at h ⊢
  cases hr : env.reserve (requestSize key tags value) with
  | none => rfl
  | some n =>
    rw [hr] at h
    exact ((setEntry_status s _).resolve_left h).2

/-- A request keeps the values that a key has, but for a SET of the key, which adds its own. -/
theorem Values.step {values' : List CacheValue} (h : Values key values s)
    (hs : Answered.Step s a s') (hsub : values ⊆ values')
    (hset : ∀ tags value ttl, a.served.cmd = .set key tags value ttl → a.status = .ok →
      value ∈ values') :
    Values key values' s' := by
  obtain ⟨hstatus, rfl⟩ := step_exec hs
  have h' : s.All fun i e => i = getMapForKey e.key → e.key = key → e.value ∈ values' :=
    fun i pos e he hi hk => hsub (h i pos e he hi hk)
  -- an entry that is changed in place keeps its key and its value
  have hold {key' : CacheKey} {old : CacheEntry} (ho : s.current key' = some old)
    (hk : old.key = key) :
      old.value ∈ values' := h'.current ho (by rw [Store.current_key ho]) hk
  have hwf := a.served.wf
  generalize a.served.cmd = c at hstatus hset hwf
  cases c with
  | get key' ignore =>
    refine h'.exec hwf fun e he _ hk => ?_
    obtain ⟨old, ho, rfl⟩ := he
    change old.value ∈ values'
    exact hold ho hk
  | set key' tags value ttl =>
    by_cases hok : a.status = .ok
    · refine h'.exec hwf fun e he _ hk => ?_
      obtain ⟨rfl, -⟩ := he
      obtain rfl : key' = key := hk
      exact hset tags value ttl rfl hok
    · rw [hstatus] at hok
      rw [exec_set_refused hok]
      exact h'
  | setTtl key' ttl =>
    refine h'.exec hwf fun e he _ hk => ?_
    obtain ⟨old, ho, rfl⟩ := he
    change old.value ∈ values'
    exact hold ho hk
  | _ => exact h'.exec hwf fun e he => he.elim

/-- After a SET that leaves no other entry of its key behind, all entries of the key have its
value. -/
theorem values_of_set {tags : List CacheTag} {value : CacheValue} {ttl : UInt32}
    (hs : Answered.Step s a s') (hc : a.served.cmd = .set key tags value ttl) (hok : a.status = .ok)
    (ha : Alone s key) :
    Values key [value] s' := by
  obtain ⟨hstatus, rfl⟩ := step_exec hs
  rw [hok, hc] at hstatus
  rw [hc]
  simp only [Cmd.exec] at hstatus ⊢
  cases hr : a.served.env.reserve (requestSize key tags value) with
  | none =>
    rw [hr] at hstatus
    cases hstatus
  | some n =>
    rw [hr] at hstatus
    simp only at hstatus ⊢
    obtain ⟨-, he⟩ | ⟨old, map, hset, he⟩ := setEntry_spec s ⟨key, tags, value, a.served.env.now,
      expiryOf a.served.env.now ttl, 0⟩
    · rw [he] at hstatus
      cases hstatus
    · obtain ⟨pos, hpos, -, rfl⟩ := setLockedCacheEntry_eq_some_iff.mp hset
      rw [he]
      intro i q e hq hi hk
      rw [slot_setMapOf, hi, hk, if_pos rfl] at hq
      by_cases hqp : q = pos
      · rw [hqp, CacheEntryHashMap.put_slots, Function.update_self] at hq
        obtain rfl := Option.some.inj hq
        exact List.mem_singleton_self _
      · -- the slot held the key before, so it is the one the SET takes
        rw [CacheEntryHashMap.put_slots, Function.update_of_ne hqp] at hq
        obtain ⟨slot, hslot, rfl⟩ := Option.map_eq_some_iff.mp hq
        exact absurd ((ha q ⟨slot, hslot, hk⟩).unique hpos) hqp

/-- After a DEL there is no entry of its key. -/
theorem values_of_del (hs : Answered.Step s a s') (hc : a.served.cmd = .del key) :
    Values key [] s' := by
  obtain ⟨-, rfl⟩ := step_exec hs
  rw [hc]
  have hnone : (deleteEntryByKey s key).2.current key = none := by
    rw [current_deleteEntryByKey, if_pos rfl]
  intro i q e hq hi hk
  subst hi
  obtain ⟨slot, hslot, rfl⟩ := Option.map_eq_some_iff.mp hq
  rw [Store.current, Store.mapOf, current_eq_none_iff] at hnone
  rw [hk] at hslot
  exact absurd ⟨slot, hslot, hk⟩ (hnone q)

/-- While no record of the key is read, its entries have the values that clients set it to. -/
theorem values_of_run {t t' : StartUp} (h : Run (Provided (NoRecord key) Step) t l t')
    (h₀ : Values key values t.store) :
    Values key (values ++ clientValues key l) t'.store := by
  refine h.history_invariant (I := fun l t => Values key (values ++ clientValues key l) t.store) ?_
    (by simpa [clientValues] using h₀)
  rintro l t ⟨o, a⟩ t' hv ⟨⟨hC, -⟩, hstep⟩
  have hsub : values ++ clientValues key l ⊆ values ++ clientValues key (l ++ [(o, a)]) :=
    List.append_subset.mpr ⟨List.subset_append_left _ _, fun _ hx =>
      List.mem_append_right _ (clientValues_subset _ _ hx)⟩
  cases hstep with
  | client hs =>
    exact hv.step hs hsub fun tags value ttl hc hok =>
      List.mem_append_right _ (mem_clientValues_of_set hc hok)
  | file hs =>
    refine hv.step hs hsub fun tags value ttl hc _ => absurd ?_ (hC rfl)
    rw [hc]
    exact rfl

/-- What a GET returns is the value of the current entry. -/
theorem get_value {ignore : Bool} (hs : Answered.Step s a s') (hg : a.served.cmd = .get key ignore)
    (hok : a.status = .ok) : ∃ e, s.current key = some e ∧ a.payload = e.value := by
  obtain ⟨⟨cmd, wf, env, r, hr, client, rest, hin, buffer, hcap⟩, status, payload⟩ := a
  obtain rfl : cmd = .get key ignore := hg
  obtain rfl : status = .ok := hok
  obtain ⟨-, hst, stale, hp⟩ := hs
  have heq : handleRequest env ⟨s, client, buffer⟩ r = handleGetRequest env ⟨s, client, buffer⟩ r :=
    handleRequest_eq hr
  have hcap' : (Ctx.mk s client buffer).payload_buffer.cap = MAX_BUCKET_SIZE := hcap
  obtain ⟨ha, hpay⟩ : (handleGetRequest env ⟨s, client, buffer⟩ r).Answers _ _ ∧ _ :=
    handleGetRequest_answers wf hr.fields hin hcap'
  simp only [Served.handle, heq] at hst hp
  rw [ha.status] at hst
  rw [hpay] at hp
  simp only [Cmd.exec] at hst
  cases hget : lockAndGetCacheEntry (s.mapOf key) key with
  | none =>
    rw [hget] at hst
    cases hst
  | some found =>
    obtain ⟨pos, e⟩ := found
    have hc := current_of_get hget
    rw [hget] at hst
    simp only at hst
    simp only [getReply, hc] at hp
    by_cases he : ignore = false ∧ e.Expired env.now
    · rw [if_pos he] at hst
      cases hst
    · rw [if_neg he] at hst hp
      by_cases hbig : e.value.length > MAX_BUCKET_SIZE
      · simp only [if_pos hbig] at hst
        cases hst
      · rw [if_neg hbig] at hp
        exact ⟨e, hc, hp⟩

/-- Once a client has set a key, leaving no other entry of it behind, or has deleted it, a GET
returns a value that a client has set the key to then or later, as long as no record of the key is
read. -/
theorem fromClient_of_noRecord {t₁ t₂ t₃ t₄ : StartUp} {w g : Answered} {ignore : Bool}
    (hw : Provided (NoRecord key) Step t₁ (.client, w) t₂)
    (hwrite : ((∃ tags value ttl, w.served.cmd = .set key tags value ttl) ∧ w.status = .ok ∧
      Alone t₁.store key) ∨ w.served.cmd = .del key)
    (hl : Run (Provided (NoRecord key) Step) t₂ l t₃)
    (hg : Step t₃ (.client, g) t₄) (hget : g.served.cmd = .get key ignore) (hok : g.status = .ok) :
    g.payload ∈ clientValues key ((.client, w) :: l) := by
  have hvalues : ∃ values, Values key values t₂.store ∧
      values ++ clientValues key l ⊆ clientValues key ((.client, w) :: l) := by
    have hcons : clientValues key ((.client, w) :: l) = clientValues key [(.client, w)] ++
        clientValues key l := by
      rw [clientValues, clientValues, clientValues, ← List.filterMap_append, List.singleton_append]
    rw [hcons]
    obtain ⟨-, hw⟩ := hw
    cases hw with
    | client hs =>
      rcases hwrite with ⟨⟨tags, value, ttl, hc⟩, hst, ha⟩ | hc
      · have hmem : value ∈ clientValues key ([] ++ [(.client, w)]) :=
          mem_clientValues_of_set hc hst
        exact ⟨[value], values_of_set hs hc hst ha, List.append_subset.mpr
          ⟨fun _ hx => List.mem_append_left _ (List.mem_singleton.mp hx ▸ hmem),
            List.subset_append_right _ _⟩⟩
      · exact ⟨[], values_of_del hs hc, List.subset_append_right _ _⟩
  obtain ⟨values, hv, hsub⟩ := hvalues
  have hv' := values_of_run hl hv
  cases hg with
  | client hs =>
    obtain ⟨e, hc, hp⟩ := get_value hs hget hok
    rw [hp]
    have hk := Store.current_key hc
    exact hsub (hv'.current hc (by rw [hk]) hk)

/-- A client sets a key at start-up, the record of another key is read, and the client gets its
key. -/
theorem fromClient_of_noRecord_set :
    ∃ (w g : Answered) (l : List (Origin × Answered)) (t t' : StartUp),
    Provided (NoRecord keyK) Step ⟨[setOf entryA], Store.init⟩ (.client, w) t ∧
    w.served.cmd = setOf entryNew ∧ Run (Provided (NoRecord keyK) Step) t l t' ∧ t'.file = [] ∧
    g.served.cmd = .get keyK true ∧ g.status = .ok ∧
    g.payload ∈ clientValues keyK ((.client, w) :: l) := by
  let new : Served := .alone (setOf entryNew) ⟨by decide, by decide, by decide⟩ startEnv
  let other : Served := .alone (setOf entryA) ⟨by decide, by decide, by decide⟩ startEnv
  let get : Served := .alone (.get keyK true) (by decide : IsName keyK) startEnv
  let stale : StaleReads := ⟨0, []⟩
  -- the client's SET
  let s₁ := (new.handle Store.init).ctx.store
  have hexec : new.cmd.exec new.env Store.init = setEntry Store.init entryNew :=
    exec_setOf rfl (by decide) (by decide) _
  have hs₁ : s₁ = (setEntry Store.init entryNew).2 :=
    (new.answers Store.init).store.trans (congrArg Prod.snd hexec)
  have hok : (setEntry Store.init entryNew).1 = .ok := congrArg Prod.fst (setEntry_init entryNew)
  have hst : (new.handle Store.init).status = .ok := by
    rw [(new.answers Store.init).status, hexec, hok]
  have halone : Alone Store.init keyK :=
    alone_of_noHoleBefore sound_init.unique (noHoleBefore_of_unbound (Store.current_init keyK))
  have hsized : new.cmd.Sized := (by decide : exactSize keyK [[0x32]] [0x6E] < 2 ^ 32)
  have hw :
    Provided (NoRecord keyK) Step ⟨[setOf entryA], Store.init⟩
    (.client, new.answered Store.init stale)
      ⟨[setOf entryA], s₁⟩ := ⟨⟨nofun, hsized⟩, .client (new.answered_step _ _)⟩
  -- the record
  let s₂ := (other.handle s₁).ctx.store
  have hexec' : other.cmd.exec other.env s₁ = setEntry s₁ entryA :=
    exec_setOf rfl (by decide) (by decide) _
  have hs₂ : s₂ = (setEntry s₁ entryA).2 :=
    (other.answers s₁).store.trans (congrArg Prod.snd hexec')
  have hcollide : Collide keyK keyA := ⟨by decide, by decide, by decide, by decide⟩
  have hok' : (setEntry s₁ entryA).1 = .ok := by
    rw [hs₁]
    exact (@leftBehind_eq entryNew entryA entryA hcollide rfl).2.2.1
  have hsized' : other.cmd.Sized := (by decide : exactSize keyA [] [0x61] < 2 ^ 32)
  have hnot : ¬ other.cmd.Sets keyK := (by decide : ¬ keyA = keyK)
  have hl :
      Run (Provided (NoRecord keyK) Step) ⟨[setOf entryA], s₁⟩ [(.file, other.answered s₁ stale)]
      ⟨[], s₂⟩ :=
    .cons ⟨⟨fun _ => hnot, hsized'⟩, .file (other.answered_step _ _)⟩ (.nil _)
  -- the GET
  have hcur : s₂.current keyK = some entryNew := by
    rw [hs₂, current_setEntry hok', if_neg (by decide), hs₁, current_setEntry hok, if_pos (by rfl)]
  have hgot : (get.answered s₂ stale).status = .ok :=
    (get.answered_status s₂ stale).trans (@get_of_some _ _ _ get rfl hcur (by decide) stale).1
  exact ⟨new.answered Store.init stale, get.answered s₂ stale, _, _, _, hw, rfl, hl, rfl, rfl, hgot,
    fromClient_of_noRecord hw (Or.inl ⟨⟨_, _, _, rfl⟩, hst, halone⟩) hl
      (.client (get.answered_step _ _)) rfl hgot⟩

/-- A record that is read after the client's SET puts its value back. -/
theorem not_fromClient :
    ¬ ∀ (records : List Cmd) (l₁ l₂ : List (Origin × Answered)) (t₁ t₂ t₃ t₄ : StartUp)
    (w g : Answered) (key : CacheKey) (ignore : Bool), Run Step ⟨records, Store.init⟩ l₁ t₁ →
    Step t₁ (.client, w) t₂ → (∃ tags value ttl, w.served.cmd = .set key tags value ttl) →
    w.status = .ok → Run Step t₂ l₂ t₃ → Step t₃ (.client, g) t₄ → g.served.cmd = .get key ignore →
    g.status = .ok → g.payload ∈ clientValues key (l₁ ++ (.client, w) :: l₂) := by
  intro h
  let new : Served := .alone (setOf entryNew) ⟨by decide, by decide, by decide⟩ startEnv
  let old : Served := .alone (setOf entryOld) ⟨by decide, by decide, by decide⟩ startEnv
  let get : Served := .alone (.get keyK true) (by decide : IsName keyK) startEnv
  let stale : StaleReads := ⟨0, []⟩
  have hexec (s : Store) : (new.cmd.exec new.env s) = setEntry s entryNew :=
    exec_setOf rfl (by decide) (by decide) s
  have hexec' (s : Store) : (old.cmd.exec old.env s) = setEntry s entryOld :=
    exec_setOf rfl (by decide) (by decide) s
  -- the client's SET
  let s₁ := (new.handle Store.init).ctx.store
  have hs₁ : s₁ = (setEntry Store.init entryNew).2 :=
    (new.answers Store.init).store.trans (congrArg Prod.snd (hexec _))
  have hok₁ : (setEntry Store.init entryNew).1 = .ok :=
    setEntry_ok_iff.mpr ⟨homeSlot keyK, openAt_init keyK _⟩
  have hst : (new.handle Store.init).status = .ok := by
    rw [(new.answers Store.init).status, hexec, hok₁]
  -- the record
  let s₂ := (old.handle s₁).ctx.store
  have hs₂ : s₂ = (setEntry s₁ entryOld).2 :=
    (old.answers s₁).store.trans (congrArg Prod.snd (hexec' _))
  have hcur₁ : s₁.current keyK = some entryNew := by
    rw [hs₁, current_setEntry hok₁, if_pos (by rfl)]
  obtain ⟨pos, hpos, -⟩ := current_eq_some_iff.mp hcur₁
  have hok₂ : (setEntry s₁ entryOld).1 = .ok := setEntry_ok_iff.mpr ⟨pos, Or.inr hpos.1⟩
  have hcur₂ : s₂.current keyK = some entryOld := by
    rw [hs₂, current_setEntry hok₂, if_pos (by rfl)]
  obtain ⟨hgot, hpay⟩ := @get_of_some _ _ _ get rfl hcur₂ (by decide) stale
  have hmem :=
    h [old.cmd] [] [(.file, old.answered s₁ stale)] _ _ _ _ (new.answered Store.init stale)
    (get.answered s₂ stale) keyK true (.nil _) (.client (new.answered_step _ _)) ⟨_, _, _, rfl⟩ hst
    (.cons (.file (old.answered_step _ _)) (.nil _)) (.client (get.answered_step _ _)) rfl hgot
  have hpayload : (get.answered s₂ stale).payload = [0x6F] := hpay
  have hvalues :
    clientValues keyK [(.client, new.answered Store.init stale), (.file, old.answered s₁ stale)] =
      [[0x6E]] := by
    have hset : (new.answered Store.init stale).served.cmd = .set keyK [[0x32]] [0x6E] 0xFFFFFFFF :=
      rfl
    have hstatus : (new.answered Store.init stale).status = .ok := hst
    simp [clientValues, hset, hstatus]
  rw [hpayload, List.nil_append, hvalues] at hmem
  exact absurd hmem (by decide)

end StartUp

end Cik

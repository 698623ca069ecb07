import Cik.Library.Runs
import Cik.Theory.Handling

/-!
# The cache as a map

To a client that only gets, sets and deletes single keys the cache is a partial map
from keys to values with expiry times. `MapStep` says what such a map answers and how
it changes; a SET may be refused, and then changes nothing. Whatever the table looks
like (a key may be in several slots, of which a search finds the newest), every run of
the server is a run of the map with the same answers (`single_key_requests_refine_map`).
-/

namespace Cik

/-- A partial map from keys to values and expiry times. -/
abbrev KeyMap := CacheKey → Option (CacheValue × Time)

/-- A request, when it was made, and what was answered: the status and the payload. -/
structure Call where
  /-- The request. -/
  cmd : Cmd
  /-- The clock. -/
  now : Time
  /-- The status. -/
  status : StatusCode
  /-- The payload. -/
  payload : List UInt8

/-- A value with this expiry time has expired. -/
def ExpiredAt (expires now : Time) : Prop := expires ≠ CACHE_EXPIRES_INIT ∧ expires < now

/-- What a map answers to a request about a single key, and how it changes. -/
inductive MapStep : KeyMap → Call → KeyMap → Prop where
  /-- A GET of an unbound key. -/
  | getNotFound {m : KeyMap} {key : CacheKey} {ignore : Bool} {now : Time} :
      m key = none → MapStep m ⟨.get key ignore, now, .notFound, []⟩ m
  /-- A GET of an expired value, when that matters. -/
  | getExpired {m : KeyMap} {key : CacheKey} {now : Time} {v : CacheValue} {e : Time} :
      m key = some (v, e) → ExpiredAt e now → MapStep m ⟨.get key false, now, .expired, []⟩ m
  /-- A GET of a value. -/
  | getOk {m : KeyMap} {key : CacheKey} {ignore : Bool} {now : Time} {v : CacheValue} {e : Time} :
      m key = some (v, e) → ¬ (ignore = false ∧ ExpiredAt e now) →
      MapStep m ⟨.get key ignore, now, .ok, v⟩ m
  /-- A SET. -/
  | setOk {m : KeyMap} {key : CacheKey} {tags : List CacheTag} {v : CacheValue} {ttl : UInt32}
      {now : Time} :
      MapStep m ⟨.set key tags v ttl, now, .ok, []⟩
        (Function.update m key (some (v, expiryOf now ttl)))
  /-- A SET that is refused. -/
  | setRefused {m : KeyMap} {key : CacheKey} {tags : List CacheTag} {v : CacheValue}
      {ttl : UInt32} {now : Time} {status : StatusCode} : status ≠ .ok →
      MapStep m ⟨.set key tags v ttl, now, status, []⟩ m
  /-- A SET of the expiry time of an unbound key. -/
  | setTtlNotFound {m : KeyMap} {key : CacheKey} {ttl : UInt32} {now : Time} :
      m key = none → MapStep m ⟨.setTtl key ttl, now, .notFound, []⟩ m
  /-- A SET of the expiry time. -/
  | setTtlOk {m : KeyMap} {key : CacheKey} {ttl : UInt32} {now : Time} {v : CacheValue} {e : Time} :
      m key = some (v, e) →
        MapStep m ⟨.setTtl key ttl, now, .ok, []⟩
          (Function.update m key (some (v, expiryOf now ttl)))
  /-- A DEL of an unbound key. -/
  | delNotFound {m : KeyMap} {key : CacheKey} {now : Time} :
      m key = none → MapStep m ⟨.del key, now, .notFound, []⟩ m
  /-- A DEL. -/
  | delOk {m : KeyMap} {key : CacheKey} {now : Time} :
      m key ≠ none → MapStep m ⟨.del key, now, .ok, []⟩ (Function.update m key none)

/-- The request is about a single key, and an entry it makes has a size below `2 ^ 32`. -/
def Cmd.SingleKey : Cmd → Prop
  | get _ _ => True
  | set key tags value _ => exactSize key tags value < 2 ^ 32
  | setTtl _ _ => True
  | del _ => True
  | _ => False

/-- A request that was handled, with what was answered. -/
structure Answered where
  /-- The request. -/
  served : Served
  /-- The status. -/
  status : StatusCode
  /-- The payload. -/
  payload : List UInt8

/-- The call of an answered request. -/
def Answered.call (a : Answered) : Call := ⟨a.served.cmd, a.served.env.now, a.status, a.payload⟩

/-- A request is handled, and answered with what the worker finds at the payload pointer. -/
def Answered.Step (s : Store) (a : Answered) (s' : Store) : Prop :=
  Served.Step s a.served s' ∧ a.status = (a.served.handle s).status ∧
    ∃ stale, a.payload = (a.served.handle s).payloadBytes stale

/-- The store is the map: a search for a key finds what the map has, and all values that are found
fit the worker's buffer. -/
structure Represents (s : Store) (m : KeyMap) : Prop where
  /-- What a search finds. -/
  lookup : ∀ key, (s.current key).map (fun e => (e.value, e.expires)) = m key
  /-- The values fit the buffer. -/
  small : ∀ key e, s.current key = some e → e.value.length ≤ MAX_BUCKET_SIZE

section Represents

variable {s s' : Store} {m : KeyMap} {key : CacheKey} {entry : CacheEntry}

theorem represents_init : Represents Store.init fun _ => none where
  lookup := fun key => by rw [Store.current_init]; rfl
  small := fun key e h => by rw [Store.current_init] at h; cases h

theorem Represents.eq_none (h : Represents s m) (hc : s.current key = none) : m key = none := by
  rw [← h.lookup, hc, Option.map_none]

theorem Represents.eq_some (h : Represents s m) (hc : s.current key = some entry) :
    m key = some (entry.value, entry.expires) := by
  rw [← h.lookup, hc, Option.map_some]

/-- Binding a key to an entry. -/
theorem Represents.update (h : Represents s m) (he : entry.value.length ≤ MAX_BUCKET_SIZE)
    (hc : ∀ k, s'.current k = if k = key then some entry else s.current k) :
    Represents s' (Function.update m key (some (entry.value, entry.expires))) where
  lookup := fun k => by
    rw [hc, Function.update_apply]
    split_ifs
    · rfl
    · exact h.lookup k
  small := fun k e hk => by
    rw [hc] at hk
    split_ifs at hk
    · rw [Option.some.injEq] at hk
      exact hk ▸ he
    · exact h.small k e hk

/-- Unbinding a key. -/
theorem Represents.update_none (h : Represents s m)
    (hc : ∀ k, s'.current k = if k = key then none else s.current k) :
    Represents s' (Function.update m key none) where
  lookup := fun k => by
    rw [hc, Function.update_apply]
    split_ifs
    · rfl
    · exact h.lookup k
  small := fun k e hk => by
    rw [hc] at hk
    split_ifs at hk
    exact h.small k e hk

/-- Nothing that a map sees has changed. -/
theorem Represents.congr (h : Represents s m)
    (hc : ∀ k, (s'.current k).map (fun e => (e.value, e.expires)) =
      (s.current k).map fun e => (e.value, e.expires)) :
    Represents s' m where
  lookup := fun k => (hc k).trans (h.lookup k)
  small := fun k e hk => by
    have hk' := hc k
    rw [hk, Option.map_some] at hk'
    obtain ⟨e', he', hee⟩ := Option.map_eq_some_iff.mp hk'.symm
    simp only [Prod.mk.injEq] at hee
    exact hee.1 ▸ h.small k e' he'

/-! One lemma for each request: it is a step of the map. -/

theorem Represents.get (h : Represents s m) (env : Env) (key : CacheKey) (ignore : Bool) :
    ∃ m',
    MapStep m ⟨.get key ignore, env.now, ((Cmd.get key ignore).exec env s).1,
      getReply env s key ignore⟩ m' ∧ Represents ((Cmd.get key ignore).exec env s).2 m' := by
  simp only [Cmd.exec, getReply]
  cases hg : lockAndGetCacheEntry (s.mapOf key) key with
  | none =>
    have hc := current_of_get_none hg
    rw [hc]
    exact ⟨m, .getNotFound (h.eq_none hc), h⟩
  | some found =>
    obtain ⟨pos, entry⟩ := found
    have hc := current_of_get hg
    have hsmall : ¬ entry.value.length > MAX_BUCKET_SIZE := Nat.not_lt.mpr (h.small key entry hc)
    simp only [hc, hsmall, if_false]
    split_ifs with he
    · obtain ⟨rfl, he⟩ := he
      exact ⟨m, .getExpired (h.eq_some hc) he, h⟩
    · refine ⟨m, .getOk (h.eq_some hc) he, h.congr fun k => ?_⟩
      have hk := key_of_get hg
      have hnew : ({ entry with nhits := entry.nhits + 1 } : CacheEntry).key = key := hk
      simp only [current_touch hg hnew k]
      split_ifs with hk
      · rw [hk, hc]
        rfl
      · rfl

theorem Represents.set (h : Represents s m) (env : Env) {key : CacheKey} {tags : List CacheTag}
    {value : CacheValue} {ttl : UInt32} (wf : (Cmd.set key tags value ttl).WF)
    (hsz : exactSize key tags value < 2 ^ 32) :
    ∃ m',
    MapStep m ⟨.set key tags value ttl, env.now,
      ((Cmd.set key tags value ttl).exec env s).1, []⟩ m' ∧
      Represents ((Cmd.set key tags value ttl).exec env s).2 m' := by
  simp only [Cmd.exec]
  cases hres : env.reserve (requestSize key tags value) with
  | none => exact ⟨m, .setRefused (by simp), h⟩
  | some n =>
    simp only
    obtain hok | ⟨hno, hsame⟩ :=
      setEntry_status s ⟨key, tags, value, env.now, expiryOf env.now ttl, 0⟩
    · -- the memory for the entry holds the value too
      have hfit := env.fits _ _ hres
      rw [requestSize_toNat wf.1 wf.2.2, Nat.mod_eq_of_lt hsz, exactSize] at hfit
      rw [hok]
      exact ⟨_, .setOk, h.update (by simp only; omega) (current_setEntry hok)⟩
    · rw [hno, hsame]
      exact ⟨m, .setRefused (by simp), h⟩

theorem Represents.setTtl (h : Represents s m) (env : Env) (key : CacheKey) (ttl : UInt32) :
    ∃ m', MapStep m ⟨.setTtl key ttl, env.now, ((Cmd.setTtl key ttl).exec env s).1, []⟩ m' ∧
      Represents ((Cmd.setTtl key ttl).exec env s).2 m' := by
  simp only [Cmd.exec]
  cases hg : lockAndGetCacheEntry (s.mapOf key) key with
  | none => exact ⟨m, .setTtlNotFound (h.eq_none (current_of_get_none hg)), h⟩
  | some found =>
    obtain ⟨pos, entry⟩ := found
    have hc := current_of_get hg
    have hk := key_of_get hg
    have hnew : ({ entry with expires := expiryOf env.now ttl } : CacheEntry).key = key := hk
    have hcur := current_touch hg hnew
    exact ⟨_, .setTtlOk (h.eq_some hc), h.update (by exact h.small key entry hc) hcur⟩

theorem Represents.del (h : Represents s m) (env : Env) (key : CacheKey) :
    ∃ m', MapStep m ⟨.del key, env.now, ((Cmd.del key).exec env s).1, []⟩ m' ∧
      Represents ((Cmd.del key).exec env s).2 m' := by
  have hcur := current_deleteEntryByKey s key
  simp only [Cmd.exec]
  obtain ⟨hc, hd⟩ | ⟨entry, hc, hd⟩ := deleteEntryByKey_spec s key
  · rw [hd]
    exact ⟨m, .delNotFound (h.eq_none hc), h⟩
  · rw [show (deleteEntryByKey s key).1 = .ok by rw [hd]]
    exact ⟨_, .delOk (by rw [h.eq_some hc]; simp), h.update_none hcur⟩

end Represents

/-- One request is one step of the map. -/
theorem Answered.Step.map {a : Answered} {s s' : Store} {m : KeyMap} (hstep : Answered.Step s a s')
    (hq : a.served.cmd.SingleKey) (h : Represents s m) : ∃ m', MapStep m a.call m' ∧
      Represents s' m' := by
  obtain ⟨⟨cmd, wf, env, r, hr, client, rest, hin, buffer, hcap⟩, status, payload⟩ := a
  obtain ⟨hs, hst, stale, hp⟩ := hstep
  have hcap' : (Ctx.mk s client buffer).payload_buffer.cap = MAX_BUCKET_SIZE := hcap
  have ha : (handleRequest env ⟨s, client, buffer⟩ r).Answers _ _ :=
    handleRequest_answers hr wf hin hcap'
  obtain rfl : s' = (cmd.exec env s).2 := hs.symm.trans ha.store
  obtain rfl : status = (cmd.exec env s).1 := hst.trans ha.status
  simp only [Served.handle, Answered.call] at hp hq ⊢
  have heq : handleRequest env ⟨s, client, buffer⟩ r = _ := handleRequest_eq hr
  cases cmd with
  | get key ignore =>
    obtain rfl : payload = getReply env s key ignore :=
      hp.trans (heq ▸ (handleGetRequest_answers wf hr.fields hin hcap).2 stale)
    exact h.get env key ignore
  | set key tags value ttl =>
    obtain rfl : payload = [] := by
      rw [hp, Handled.payloadBytes, heq, handleSetRequest_response_payload]
    exact h.set env wf hq
  | setTtl key ttl =>
    obtain rfl : payload = [] := by
      rw [hp, Handled.payloadBytes, heq, handleSetRequest_response_payload]
    exact h.setTtl env key ttl
  | del key =>
    obtain rfl : payload = [] := by
      rw [hp, Handled.payloadBytes, heq, handleDelRequest_response_payload]
    exact h.del env key
  | clr mode tags => exact hq.elim
  | lst mode tags => exact hq.elim
  | nfo key => exact hq.elim

/-- Requests about single keys, handled one at a time from the empty store on, are answered as a
partial map answers them; the map at the end is what a search finds in the store. -/
theorem single_key_requests_refine_map {l : List Answered} {s : Store}
    (h : Run Answered.Step Store.init l s) (hl : ∀ a ∈ l, a.served.cmd.SingleKey) :
    ∃ m, Run MapStep (fun _ => none) (l.map Answered.call) m ∧
      ∀ key, (s.current key).map (fun e => (e.value, e.expires)) = m key := by
  obtain ⟨m, hm, hr⟩ := (h.provided hl).simulation (R := Represents) (f := Answered.call)
    (fun s a s' m hr hs => hs.2.map hs.1 hr) represents_init
  exact ⟨m, hm, hr.lookup⟩

/-- A request that is handled, and what it is answered. -/
def Served.answered (q : Served) (s : Store) (stale : StaleReads) : Answered :=
  ⟨q, (q.handle s).status, (q.handle s).payloadBytes stale⟩

theorem Served.answered_status (q : Served) (s : Store) (stale : StaleReads) :
    (q.answered s stale).status = (q.handle s).status := rfl

theorem Served.answered_step (q : Served) (s : Store) (stale : StaleReads) :
    Answered.Step s (q.answered s stale) (q.handle s).ctx.store := ⟨rfl, rfl, stale, rfl⟩

/-- A SET and a GET of its key, at start-up. -/
theorem single_key_requests_refine_map_set_get :
    ∃ (l : List Answered) (s : Store),
    l.map (fun a => a.served.cmd) = [.set [1] [[2]] [3] 5, .get [1] false] ∧
      ∃ m, Run MapStep (fun _ => none) (l.map Answered.call) m ∧
        ∀ key, (s.current key).map (fun e => (e.value, e.expires)) = m key := by
  let env := Memory.env (initMemory 0) 0
  let set := Served.alone (.set [1] [[2]] [3] 5) ⟨by decide, by decide, by decide⟩ env
  let get := Served.alone (.get [1] false) (by decide : IsName [1]) env
  let s := (set.handle Store.init).ctx.store
  let stale : StaleReads := ⟨0, []⟩
  refine ⟨[set.answered Store.init stale, get.answered s stale], (get.handle s).ctx.store, rfl,
    single_key_requests_refine_map
      (.cons (set.answered_step Store.init stale) (.cons (get.answered_step s stale) (.nil _))) ?_⟩
  intro a ha
  simp only [List.mem_cons, List.not_mem_nil, or_false] at ha
  obtain rfl | rfl := ha
  · exact (by decide : exactSize [1] [[2]] [3] < 2 ^ 32)
  · exact trivial

end Cik

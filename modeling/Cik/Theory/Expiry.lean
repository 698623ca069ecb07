import Cik.Theory.Duplicates

/-!
# Keys that have expired

Nothing brings an entry back that has expired but a request that renews it: where no key is in
two slots, a key whose entry has expired is not found again, or found to have expired, until
a SET of the key is handled (`stays_expired`). The other requests may come in any order, and be
refused; what carries this is that they put no entry of the key into a slot but one that
was there, with its expiry time (`Cmd.Makes`). That no other SET writes into the entry itself takes
sizes that do not wrap (`Served.NotRenewing`). Where a key is in two slots, an older entry of it may
be found when the newer one has expired (`not_stays_expired`).
-/

namespace Cik

open Probing CacheEntryHashMap

variable {env : Env} {s s' : Store} {c : Cmd} {key : CacheKey} {e : CacheEntry} {now : Time}
  {get : Served}

/-- The request sets the expiry time of an entry of the key. -/
def Cmd.Renews (key : CacheKey) : Cmd → Prop
  | set key' _ _ _ => key' = key
  | setTtl key' _ => key' = key
  | _ => False

/-- The request does not renew the key, and its size does not wrap. -/
def Served.NotRenewing (key : CacheKey) (_ : Store) (q : Served) : Prop :=
  ¬ q.cmd.Renews key ∧ q.cmd.Sized

/-- All entries of the key have expired. -/
def Store.Lapsed (key : CacheKey) (now : Time) (s : Store) : Prop :=
  s.All fun _ e => e.key = key → e.Expired now

/-- What a request makes of a key that it does not renew has expired, if all that there was had. -/
theorem Cmd.Makes.expired (hm : c.Makes env s e) (hc : ¬ c.Renews key) (h : s.Lapsed key now)
    (hk : e.key = key) :
    e.Expired now := by
  cases c with
  | get key' ignore =>
    obtain ⟨old, hcur, rfl⟩ := hm
    have hold : old.Expired now := h.current hcur hk
    exact hold
  | set key' tags value ttl =>
    obtain ⟨rfl, -⟩ := hm
    exact absurd hk hc
  | setTtl key' ttl =>
    obtain ⟨old, hcur, rfl⟩ := hm
    exact absurd ((Store.current_key hcur).symm.trans hk) hc
  | _ => exact hm.elim

namespace Store.Lapsed

theorem exec (h : s.Lapsed key now) (hw : c.WF) (hc : ¬ c.Renews key) :
    (c.exec env s).2.Lapsed key now :=
  Store.All.exec h hw fun _ hm hk => hm.expired hc h hk

/-- Whatever requests are handled that do not renew the key. -/
theorem run {l : List Served} (h : s.Lapsed key now)
    (hrun : Run (Provided (Served.NotRenewing key) Served.Step) s l s') :
    s'.Lapsed key now := by
  refine hrun.invariant ?_ h
  rintro s q s' h ⟨⟨hc, -⟩, hstep⟩
  rw [hstep.eq_exec]
  exact h.exec q.wf hc

end Store.Lapsed

/-! ### GET -/

/-- What a GET is answered. -/
theorem get_status (hget : get.cmd = .get key false) (s : Store) : (get.handle s).status =
    (s.current key).elim .notFound fun e =>
      if e.Expired get.env.now then .expired else if e.value.length > MAX_BUCKET_SIZE then .bug
        else .ok := by
  rw [(get.answers s).status, hget]
  simp only [Cmd.exec]
  cases hg : lockAndGetCacheEntry (s.mapOf key) key with
  | none => rw [current_of_get_none hg, Option.elim_none]
  | some found =>
    obtain ⟨pos, entry⟩ := found
    rw [current_of_get hg, Option.elim_some]
    simp only [true_and]
    split_ifs <;> rfl

/-- A GET is answered with `STATUS_EXPIRED` when it has found an entry that has expired. -/
theorem get_expired_iff (hget : get.cmd = .get key false) :
    (get.handle s).status = .expired ↔ ∃ e, s.current key = some e ∧ e.Expired get.env.now := by
  rw [get_status hget]
  cases hc : s.current key with
  | none => simp
  | some e =>
    rw [Option.elim_some]
    split_ifs with he hv <;> simp [he]

/-- In a sound store it is the only entry of the key. -/
theorem lapsed_of_get (hs : s.Sound) (hget : get.cmd = .get key false)
    (h : (get.handle s).status = .expired) :
    s.Lapsed key get.env.now := by
  obtain ⟨e, hc, he⟩ := (get_expired_iff hget).mp h
  intro i pos e' hslot hk
  have hc' := hs.mem_entries.mp (mem_entries_iff.mpr ⟨i, pos, hslot⟩)
  rw [hk, hc] at hc'
  exact Option.some.inj hc' ▸ he

theorem get_of_lapsed (hget : get.cmd = .get key false) (h : s.Lapsed key now)
    (hle : now ≤ get.env.now) :
    (get.handle s).status = .expired ∨ (get.handle s).status = .notFound := by
  cases hc : s.current key with
  | none =>
    right
    rw [get_status hget, hc, Option.elim_none]
  | some e =>
    obtain ⟨hne, hlt⟩ := h.current hc (Store.current_key hc)
    exact Or.inl ((get_expired_iff hget).mpr ⟨e, hc, hne, lt_of_lt_of_le hlt hle⟩)

/-- When a GET of a key was answered with `STATUS_EXPIRED`, after orderly requests, no later GET of
the key is answered with a value, whatever is handled between the two but what renews the key. -/
theorem stays_expired {l l' : List Served} {get' : Served}
    (h : Run (Provided Served.Orderly Served.Step) Store.init l s)
    (hget : get.cmd = .get key false) (hexp : (get.handle s).status = .expired)
    (hrun : Run (Provided (Served.NotRenewing key) Served.Step) s l' s')
    (hget' : get'.cmd = .get key false) (hle : get.env.now ≤ get'.env.now) :
    (get'.handle s').status = .expired ∨ (get'.handle s').status = .notFound :=
  get_of_lapsed hget' ((lapsed_of_get (sound_of_orderly h sound_init_wf).1 hget hexp).run hrun) hle

/-- A SET that expires at once, a GET, the SET of another key, a DEL and a GET. -/
theorem stays_expired_del : ∃ (s s' : Store) (get other del : Served),
    (get.handle s).status = .expired ∧ other.cmd = setOf entryA ∧ del.cmd = .del keyK ∧
    Run Served.Step s [other, del] s' ∧
      ((get.handle s').status = .expired ∨ (get.handle s').status = .notFound) := by
  let set : Served :=
    .alone (.set keyK [[0x31]] [0x6F] 0) ⟨by decide, by decide, by decide⟩ startEnv
  let get : Served :=
    .alone (.get keyK false) (by decide : IsName keyK) (Memory.env (initMemory 0) 1)
  let other : Served := .alone (setOf entryA) ⟨by decide, by decide, by decide⟩ startEnv
  let del : Served := .alone (.del keyK) (by decide : IsName keyK) startEnv
  have hplace : set.cmd.InPlace Store.init := noHoleBefore_of_unbound (Store.current_init keyK)
  have hsized : set.cmd.Sized := (by decide : exactSize keyK [[0x31]] [0x6F] < 2 ^ 32)
  have hstep := Served.step_exec set Store.init
  have hok : (setEntry Store.init ⟨keyK, [[0x31]], [0x6F], 0, 0, 0⟩).1 = .ok :=
    setEntry_ok_iff.mpr ⟨homeSlot keyK, openAt_init keyK _⟩
  have hexec :
      (set.cmd.exec set.env Store.init).2 =
      (setEntry Store.init ⟨keyK, [[0x31]], [0x6F], 0, 0, 0⟩).2 :=
    congrArg Prod.snd (exec_set ((env_initMemory_grants 0 0).requestSize (by decide) (by decide)))
  have hcur :
      (set.cmd.exec set.env Store.init).2.current keyK =
      some ⟨keyK, [[0x31]], [0x6F], 0, 0, 0⟩ := by
    rw [hexec, current_setEntry hok, if_pos (by rfl)]
  have hexp := (@get_expired_iff _ _ get rfl).mpr ⟨_, hcur, by decide, by decide⟩
  have hother := Served.step_exec other (set.cmd.exec set.env Store.init).2
  have hdel := Served.step_exec del (other.cmd.exec other.env (set.cmd.exec set.env Store.init).2).2
  have hnot : ¬ other.cmd.Renews keyK := (by decide : ¬ keyA = keyK)
  have hsized' : other.cmd.Sized := (by decide : exactSize keyA [] [0x61] < 2 ^ 32)
  have hnot' : ¬ del.cmd.Renews keyK := not_false
  exact ⟨_, _, get, other, del, hexp, rfl, rfl, .cons hother (.cons hdel (.nil _)),
    stays_expired (.cons ⟨⟨hplace, hsized⟩, hstep⟩ (.nil _)) rfl hexp
      (.cons ⟨⟨hnot, hsized'⟩, hother⟩ (.cons ⟨⟨hnot', trivial⟩, hdel⟩ (.nil _))) rfl le_rfl⟩

/-- A newer entry that expires at once. -/
def entryBrief : CacheEntry := ⟨keyK, [[0x32]], [0x6E], 0, 0, 0⟩

/-- The requests that leave an older entry behind it. -/
theorem brief_run : ∃ l, Run Served.Step Store.init l (leftBehind entryA entryOld entryBrief) ∧
    ∀ q ∈ l, q.cmd.Sized ∧ q.env.Grants := by
  have hgrants := env_initMemory_grants 0 0
  have hbrief (s : Store) :
      (Cmd.set keyK [[0x32]] [0x6E] 0).exec startEnv s = setEntry s entryBrief :=
    exec_set (hgrants.requestSize (by decide) (by decide))
  have hlast (s : Store) : Served.Step s
      (.alone (.set keyK [[0x32]] [0x6E] 0) ⟨by decide, by decide, by decide⟩ startEnv)
      (setEntry s entryBrief).2 :=
    hbrief s ▸ Served.step_exec
      (.alone (.set keyK [[0x32]] [0x6E] 0) ⟨by decide, by decide, by decide⟩ startEnv) s
  refine ⟨_, .cons (step_setOf (e := entryA) rfl ⟨by decide, by decide, by decide⟩ (by decide) _)
    (.cons (step_setOf (e := entryOld) rfl ⟨by decide, by decide, by decide⟩ (by decide) _)
    (.cons (Served.step_exec (.alone (.del keyA) (by decide : IsName keyA) startEnv) _)
      (.cons (hlast _) (.nil _)))), ?_⟩
  simp only [List.forall_mem_cons, List.not_mem_nil, false_implies, implies_true, and_true]
  exact ⟨⟨(by decide : exactSize _ _ _ < 2 ^ 32), hgrants⟩,
    ⟨(by decide : exactSize _ _ _ < 2 ^ 32), hgrants⟩, ⟨trivial, hgrants⟩,
    (by decide : exactSize _ _ _ < 2 ^ 32), hgrants⟩

/-- A CLR of what has expired takes the newer entry out, and the older one is found again. -/
theorem not_stays_expired :
    ¬ ∀ (l l' : List Served) (s s' : Store) (key : CacheKey) (get get' : Served),
    Run Served.Step Store.init l s → (∀ q ∈ l, q.cmd.Sized ∧ q.env.Grants) →
    get.cmd = .get key false → (get.handle s).status = .expired →
    Run (Provided (Served.NotRenewing key) Served.Step) s l' s' →
    get'.cmd = .get key false → get.env.now ≤ get'.env.now →
    (get'.handle s').status = .expired ∨ (get'.handle s').status = .notFound := by
  intro h
  let get : Served :=
    .alone (.get keyK false) (by decide : IsName keyK) (Memory.env (initMemory 0) 1)
  let clr : Served :=
    .alone (.clr CLEAR_MODE_OLD []) ⟨by decide, by decide⟩ (Memory.env (initMemory 0) 1)
  obtain ⟨l, hrun, hl⟩ := brief_run
  have hcur : (leftBehind entryA entryOld entryBrief).current keyK = some entryBrief :=
    @current_leftBehind entryA entryOld entryBrief collide_keys rfl
  have hexp := (@get_expired_iff _ _ get rfl).mpr ⟨_, hcur, by decide, by decide⟩
  have hclr := Served.step_exec clr (leftBehind entryA entryOld entryBrief)
  have hrenews : ¬ clr.cmd.Renews keyK := not_false
  have hgot :=
    h l [clr] _ _ keyK get get hrun hl rfl hexp
    (.cons ⟨⟨hrenews, trivial⟩, hclr⟩ (.nil _)) rfl le_rfl
  change (get.handle ((leftBehind entryA entryOld entryBrief).cleared 1 CLEAR_MODE_OLD [])).status =
    _ ∨
    (get.handle ((leftBehind entryA entryOld entryBrief).cleared 1 CLEAR_MODE_OLD [])).status =
    _ at hgot
  rw [cleared_old] at hgot
  have hmapOf (s : Store) (p : CacheEntry → Bool) (tags : TagTree) (key : CacheKey) :
      (s.without p tags).mapOf key = (s.mapOf key).without p := rfl
  generalize unindex _ _ = tags at hgot
  rcases hgot with hg | hg
  · -- what has expired is not there any more
    obtain ⟨e, hc, he⟩ := (get_expired_iff rfl).mp hg
    rw [Store.current, hmapOf] at hc
    obtain ⟨pos, -, hs⟩ := current_eq_some_iff.mp hc
    rw [slot_without, Option.filter_eq_some_iff] at hs
    have hlive := hs.2
    rw [Bool.not_eq_true', decide_eq_false_iff_not] at hlive
    exact hlive he
  · -- the older entry is
    have hheld : ((leftBehind entryA entryOld entryBrief).mapOf keyK).slots (next (homeSlot keyK)) =
        some (Slot.ofEntry entryOld) := by
      rw [(@leftBehind_eq entryA entryOld entryBrief collide_keys rfl).1, mapOf_oneMap (by rfl),
        twoSlots, put_slots, Function.update_of_ne (by decide), put_slots]
      exact Function.update_self ..
    rw [get_status rfl] at hg
    cases hc :
        ((leftBehind entryA entryOld entryBrief).without (fun e => decide (e.Expired 1))
        tags).current keyK with
    | none =>
      rw [Store.current, hmapOf] at hc
      refine current_eq_none_iff.mp hc (next (homeSlot keyK)) ⟨Slot.ofEntry entryOld, ?_, rfl⟩
      rw [without_slots, hheld]
      rfl
    | some e =>
      rw [hc, Option.elim_some] at hg
      split_ifs at hg

end Cik

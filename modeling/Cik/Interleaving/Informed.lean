import Cik.Interleaving.Indexed
import Cik.Theory.Frames

/-!
# What the handlers need to know

The functions of `entry.c` and the handlers keep the contract of `Cik.Interleaving.Beliefs`
(`lets_handleRequest`). An entry that is put into a map is that of the SET that is handled;
and what a GET answers with is what the worker has seen in an entry with the key that it has
read for it (`GetsSeen`).
-/

namespace Cik

namespace Guarded

open Prog

variable {α β : Type} {b b' : Belief} {key : CacheKey} {e : ℕ} {x : Option Handling}

/-! ### What is read from the client -/

theorem lets_readRequestKey {klen : UInt8} {Q : StatusCode × CacheKey → Belief → Prop}
    (hok : ∀ key : CacheKey, key.length = klen.toNat → Q (.ok, key) (b.hear [key.reverse]))
    (hfail : ∀ status, status ≠ .ok → Q (status, []) b) : Lets Q b (readRequestKey klen) := by
  refine .bind (lets_read (fun bs hlen => ?_) fun status bs hs => ?_)
  · dsimp only
    split_ifs with h0
    · exact trivial
    · have hpos : 0 < klen.toNat := Nat.pos_of_ne_zero fun h => h0 (UInt8.toNat_inj.mp h)
      have hrev :=
        read_reverseBytes (ByteMemory.write (fun _ => 0) 0 bs) 0 (toNat_toUInt32_pos hpos)
      have hw := ByteMemory.read_write_self (fun _ => 0) 0 bs
      rw [hlen] at hw
      rw [UInt8.toNat_toUInt32, hw] at hrev
      have hdone := hok bs.reverse (List.length_reverse.trans hlen)
      rw [List.reverse_reverse] at hdone
      rw [hrev]
      exact hdone
  · cases status with
    | ok => exact absurd rfl hs
    | _ => exact hfail _ hs

/-- The loop over the tags reads each of them behind its length. -/
theorem lets_readTagsLoop {ntags : ℕ} {base : ByteMemory} {buffer cap : ℕ} {tags : List Slice}
    {Q : StatusCode × List Slice × ByteMemory × ℕ → Belief → Prop}
    (hbuffer : ∀ tag ∈ tags, tag.base + tag.nmemb ≤ buffer)
    (hok : ∀ new slices base' cap', new.length = ntags →
      (slices.map fun tag => tag.bytes base') = (tags.map fun tag => tag.bytes base) ++ new →
      Q (.ok, slices, base', cap')
      (b.hear (new.flatMap fun tag => [[UInt8.ofNat tag.length], tag.reverse])))
    (hfail : ∀ status slices base' cap' b', status ≠ .ok → SameHold b b' →
      Q (status, slices, base', cap') b') :
    Lets Q b (readTagsLoop ntags base buffer cap tags) := by
  induction ntags generalizing base buffer cap tags b with
  | zero =>
    have h := hok [] tags base cap rfl (List.append_nil _).symm
    rw [List.flatMap_nil, Belief.hear_nil] at h
    exact h
  | succ ntags ih =>
    refine .bind (lets_read (fun lens hlens => ?_) fun status bs hs => ?_)
    · obtain ⟨n, rfl⟩ := List.length_eq_one_iff.mp hlens
      dsimp only
      generalize hhead : [n].headD 0 = n'
      obtain rfl : n = n' := hhead
      split_ifs with hn h0
      · exact hfail _ _ _ _ _ (by simp) ⟨rfl, rfl, rfl⟩
      · -- an empty tag
        refine .bind (lets_read (fun bs hlen => trivial) fun status bs hs => ?_)
        cases status with
        | ok => exact absurd rfl hs
        | _ => exact hfail _ _ _ _ _ hs ⟨rfl, rfl, rfl⟩
      · refine .bind (lets_read (fun bs hlen => ?_) fun status bs hs => ?_)
        · have hle : bs.reverse.length ≤ 255 := by
            rw [List.length_reverse, hlen]
            exact Nat.le_of_lt_succ (UInt8.toNat_lt n)
          have hn' :
            UInt8.ofNat bs.reverse.length = n := by
            rw [List.length_reverse, hlen, UInt8.ofNat_toNat]
          obtain ⟨hread, hbefore, -⟩ := reverseBytes_tag hle base buffer rfl
          rw [hn', List.reverse_reverse, List.length_reverse, hlen] at hread
          rw [hn', List.reverse_reverse] at hbefore
          refine ih (fun tag htag => ?_) (fun new slices base' cap' hnew hs => ?_)
              fun status slices base' cap' b' hst hb' =>
            hfail status slices base' cap' b' hst ⟨hb'.atSlot, hb'.fresh, hb'.seen⟩
          · rcases List.mem_append.mp htag with htag | htag
            · exact (hbuffer tag htag).trans (Nat.le_add_right _ _)
            · rw [List.mem_singleton.mp htag]
          · -- what was read before is below the buffer, and is as it was
            have hsame :
              (tags.map fun tag =>
              tag.bytes (reverseBytes (base.write buffer bs) buffer n.toUInt32)) =
                tags.map fun tag => tag.bytes base :=
              List.map_congr_left fun tag htag => ByteMemory.read_congr fun i hi =>
                hbefore _ (Nat.lt_of_lt_of_le (Nat.add_lt_add_left hi _) (hbuffer tag htag))
            have h := hok (bs.reverse :: new) slices base' cap' (by rw [List.length_cons, hnew]) (by
              rw [hs, List.map_append, hsame, List.map_singleton, Slice.bytes, hread,
                List.append_assoc, List.singleton_append])
            rw [List.flatMap_cons, hn', List.reverse_reverse] at h
            simpa using h
        · cases status with
          | ok => exact absurd rfl hs
          | _ => exact hfail _ _ _ _ _ hs ⟨rfl, rfl, rfl⟩
    · cases status with
      | ok => exact absurd rfl hs
      | _ => exact hfail _ _ _ _ _ hs ⟨rfl, rfl, rfl⟩

theorem lets_readTags {buffer : Payload} {ntags : UInt8}
    {Q : StatusCode × List Slice × Payload → Belief → Prop}
    (hok : ∀ slices buffer', slices.length = ntags.toNat → Q (.ok, slices, buffer')
      (b.hear ((slices.map fun tag => tag.bytes buffer'.base).flatMap fun tag =>
        [[UInt8.ofNat tag.length], tag.reverse])))
    (hfail : ∀ status slices buffer' b', status ≠ .ok → SameHold b b' →
      Q (status, slices, buffer') b') :
    Lets Q b (readTagsUsingPayloadBuffer buffer ntags) := by
  refine .bind
    (lets_readTagsLoop (by simp) (fun new slices base' cap' hnew hs => ?_)
    fun status slices base' cap' b' hst hb' => ?_)
  · rw [List.map_nil, List.nil_append] at hs
    rw [← hs]
    exact hok slices _ (by rw [← hnew, ← hs, List.length_map])
  · exact hfail status slices _ b' hst hb'

/-! ### Searches -/

/-- A search in a map: what holds at a slot holds at the next one if nothing has come of it. -/
theorem lets_probe (I : Belief → Prop) {visit : SlotPos → Program (Option α)}
    {map : Fin NUM_CACHE_ENTRY_MAPS} {Q : Option α → Belief → Prop}
    (hvisit : ∀ p b, p.1 = map → I b →
      Lets (fun r b' => r.elim (I b') fun a => Q (some a) b') b (visit p))
    (hnone : ∀ b, I b → Q none b) (n : ℕ) (pos : Fin CACHE_ENTRY_MAP_SIZE) (hI : I b) :
    Lets Q b (probe visit map n pos) := by
  induction n generalizing pos b with
  | zero => exact hnone b hI
  | succ n ih =>
    refine .bind ((hvisit (map, pos) b rfl hI).mono fun r b' hr => ?_)
    cases r with
    | none => exact ih (pos + 1) hr
    | some a => exact hr

theorem lets_probeKey (I : Belief → Prop) {visit : SlotPos → Program (Option α)}
    {Q : Option α → Belief → Prop}
    (hvisit : ∀ p b, p.1 = getMapForKey key → I b →
      Lets (fun r b' => r.elim (I b') fun a => Q (some a) b') b (visit p))
    (hnone : ∀ b, I b → Q none b) (hI : I b) : Lets Q b (probeKey visit key) :=
  lets_probe I hvisit hnone _ _ hI

/-- A worker that has nothing to put into a map, and has come this far with a request. -/
structure Idle (x : Option Handling) (b : Belief) : Prop extends b.AtRest where
  /-- The request. -/
  handling : b.handling = x

/-- A worker that has no slot's guard has found this entry in a slot, with the key. -/
structure Found (x : Option Handling) (key : CacheKey) (e : ℕ) (c : CacheEntry) (b : Belief) :
    Prop extends Idle x b where
  /-- What is in the entry. -/
  entry : b.entry e = some c
  /-- It has the key. -/
  key : c.key = key
  /-- It is not new. -/
  seen : c ∈ b.seen

theorem lets_visitKey {found : SlotPos → ℕ → Program α} {p : SlotPos} {Q : Option α → Belief → Prop}
    (hb : Idle x b) (hnone : ∀ b', Idle x b' → Q none b')
    (hf : ∀ e c b', Found x key e c { b' with atSlot := false } →
      Lets (fun a => Q (some a)) b' (found p e)) :
    Lets Q b (visitKey key found p) := by
  obtain ⟨⟨hat, hfresh⟩, hx⟩ := hb
  refine .bind fun o => .bind (lets_readSlot fun m hm => ?_)
  cases m with
  | none => exact hnone _ ⟨⟨rfl, hfresh⟩, hx⟩
  | some m =>
    have ho : o = some m.entry := (hm o rfl).1.symm
    change Lets Q _ (if m.hash = getKeyHash key then _ else _)
    split_ifs with hhash
    · refine .bind (.inr ⟨congrArg some ho, .bind (lets_readEntry fun c hshort hc => ?_)⟩)
      change Lets Q _ (if c.key = key then _ else _)
      split_ifs with hkey
      · refine .bind
          (hf m.entry c _ ⟨⟨⟨rfl, hfresh⟩, hx⟩, Function.update_self .., hkey, Or.inr ⟨rfl, ?_⟩⟩)
        change m.entry ∉ b.fresh
        rw [hfresh]
        exact Set.notMem_empty _
      · refine hnone _ ⟨⟨rfl, ?_⟩, hx⟩
        change b.fresh \ {m.entry} = ∅
        rw [hfresh, Set.empty_sdiff]
    · exact hnone _ ⟨⟨rfl, hfresh⟩, hx⟩

theorem lets_lockAndGetCacheEntry {Q : Option ℕ → Belief → Prop} (hb : Idle x b)
    (hnone : ∀ b', Idle x b' → Q none b') (hsome : ∀ e c b', Found x key e c b' → Q (some e) b') :
    Lets Q b (lockAndGetCacheEntry key) := by
  refine .bind
    (lets_probeKey (Idle x)
    (fun p b _ hb => lets_visitKey hb (fun _ hb => hb) fun e c b' hf => ?_) hnone hb)
  exact .bind (hsome e c _ ⟨⟨⟨rfl, hf.fresh⟩, hf.handling⟩, hf.entry, hf.key, hf.seen⟩)

theorem lets_lockAndUnsetCacheEntry {Q : Option ℕ → Belief → Prop} (hb : Idle x b)
    (hnone : ∀ b', Idle x b' → Q none b') (hsome : ∀ e c b', Found x key e c b' → Q (some e) b') :
    Lets Q b (lockAndUnsetCacheEntry key) := by
  refine lets_probeKey (Idle x)
    (fun p b _ hb => lets_visitKey hb (fun _ hb => hb) fun e c b' hf => ?_) hnone hb
  exact .bind (.bind (hsome e c _ ⟨⟨⟨rfl, hf.fresh⟩, hf.handling⟩, hf.entry, hf.key, hf.seen⟩))

/-! ### SET -/

/-- An entry that a worker has found is written with the same content. -/
theorem lets_writeFound {c v : CacheEntry} {Q : Unit → Belief → Prop} (hb : Found x key e c b)
    (hc : c.key.length ≤ 255) (hv : SameContent c v)
    (hQ : ∀ b', Idle x b' → b'.seen = b.seen → Q () b') : Lets Q b (writeEntry e v) :=
  ⟨by rwa [hv.key], Or.inr ⟨c, hb.entry, hv⟩, hQ _ ⟨⟨hb.atSlot, hb.fresh⟩, hb.handling⟩ rfl⟩

/-- A worker that has no slot's guard, and no new entry but this. -/
structure Made (e : ℕ) (b : Belief) : Prop where
  /-- It has no slot's guard. -/
  atSlot : b.atSlot = false
  /-- It has no other new entry. -/
  fresh : b.fresh ⊆ {e}

theorem Belief.AtRest.made (h : b.AtRest) : Made e b :=
  ⟨h.atSlot, by rw [h.fresh]; exact Set.empty_subset _⟩

/-- The guard of an entry is released. -/
theorem Made.unlock {Q : Unit → Belief → Prop} (h : Made e b)
    (hQ : ∀ b', b'.AtRest → b'.handling = b.handling → b'.seen = b.seen → Q () b') :
    Lets Q b (unlock (.entry e)) :=
  hQ _ ⟨h.atSlot, Set.sdiff_eq_empty.mpr h.fresh⟩ rfl rfl

/-- What the worker has found is in the entry when it is read again. -/
theorem lets_readFound {c : CacheEntry} {Q : CacheEntry → Belief → Prop} (hb : Found x key e c b)
    (hQ : ∀ b', c.key.length ≤ 255 → Found x key e c b' → Q c b') : Lets Q b (readEntry e) := by
  refine lets_readEntry fun entry hshort hentry => ?_
  obtain rfl := hentry c hb.entry
  exact hQ _ hshort ⟨⟨⟨hb.atSlot, hb.fresh⟩, hb.handling⟩, Function.update_self .., hb.key,
    Or.inl hb.seen⟩

theorem lets_renewTtl {ttl : UInt32} {Q : StatusCode → Belief → Prop} (hb : Idle x b)
    (hQ : ∀ status b', b'.AtRest → Q status b') : Lets Q b (renewTtl key ttl) := by
  refine .bind
    (lets_lockAndGetCacheEntry hb (fun b' hb' => hQ _ b' hb'.toAtRest) fun e c b' hf => ?_)
  refine .bind (lets_readFound hf fun b' hshort hf => ?_)
  dsimp only
  split_ifs
  · refine .bind (lets_writeFound hf hshort ⟨rfl, rfl, rfl⟩ fun b' hb' _ => ?_)
    exact .bind (hb'.made.unlock fun b' hb' _ _ => hQ _ b' hb')
  · refine .bind fun now => .bind (lets_writeFound hf hshort ⟨rfl, rfl, rfl⟩ fun b' hb' _ => ?_)
    exact .bind (hb'.made.unlock fun b' hb' _ _ => hQ _ b' hb')

/-- A worker that has a new entry, and knows what is in it. -/
structure Making (x : Option Handling) (e : ℕ) (c : CacheEntry) (b : Belief) : Prop where
  /-- It has no slot's guard. -/
  atSlot : b.atSlot = false
  /-- The entry is new. -/
  fresh : b.fresh = {e}
  /-- What is in the entry. -/
  entry : b.entry e = some c
  /-- The request that it handles. -/
  handling : b.handling = x

theorem Making.made {c : CacheEntry} (h : Making x e c b) : Made e b := ⟨h.atSlot, h.fresh.subset⟩

/-- A worker that makes an entry and is at a place for it has the guard of the slot. The entry
itself is in no slot yet. -/
theorem lets_visitOpen {c : CacheEntry} {p : SlotPos} {Q : Option Probed → Belief → Prop}
    (hb : Making x e c b) (hnone : ∀ b', Making x e c b' → Q none b')
    (hf : ∀ occupant b', Making x e c { b' with atSlot := false } →
      Q (some (.found p occupant)) b') :
    Lets Q b (visitOpen key e p) := by
  obtain ⟨hat, hfresh, hentry, hx⟩ := hb
  refine .bind fun o => .bind (lets_readSlot fun m hm => ?_)
  cases m with
  | none => exact hf none _ ⟨rfl, hfresh, hentry, hx⟩
  | some m =>
    have ho : o = some m.entry := (hm o rfl).1.symm
    have he : m.entry ≠ e := by
      rintro rfl
      exact (hm o rfl).2 m.entry (by change _ ∈ b.fresh; rw [hfresh]; exact Set.mem_singleton _) ho
    change Lets Q _ (if m.hash = getKeyHash key then _ else _)
    split_ifs with hhash
    · refine .bind (.inr ⟨congrArg some ho, .bind (lets_readEntry fun c' hshort hc => ?_)⟩)
      have hentry' : Function.update b.entry m.entry (some c') e = some c := by
        rw [Function.update_of_ne (Ne.symm he)]
        exact hentry
      change Lets Q _ (if c'.key = key then _ else _)
      split_ifs with hkey
      · exact hf _ _ ⟨rfl, hfresh, hentry', hx⟩
      · refine hnone _ ⟨rfl, ?_, ?_, hx⟩
        · change b.fresh \ {m.entry} = {e}
          rw [hfresh]
          exact Set.sdiff_singleton_eq_self he
        · change Function.update (Function.update b.entry m.entry (some c')) m.entry none e = some c
          rw [Function.update_of_ne (Ne.symm he)]
          exact hentry'
    · exact hnone _ ⟨rfl, hfresh, hentry, hx⟩

/-- An entry that goes to a slot has to be that of the SET. It is new no more. -/
theorem lets_setLockedCacheEntry {c : CacheEntry} {Q : Bool × Option ℕ → Belief → Prop}
    (hb : Making x e c b) (hx : ∃ y, x = some y ∧ y.Sets c)
    (hfull : ∀ b', Made e b' → Q (false, none) b') (hset : ∀ old b', b'.AtRest → Q (true, old) b') :
    Lets Q b (setLockedCacheEntry e) := by
  refine .bind (lets_readEntry fun c' hshort hc' => ?_)
  obtain rfl := hc' c hb.entry
  refine .bind (lets_probeKey (Making x e c') (Q := fun r b' => Lets Q b' _) (fun p b' hp hb' => ?_)
    (fun b' hb' => ?_) ?_)
  · refine lets_visitOpen hb' (fun _ hb' => hb') fun occupant b' hb' => ?_
    refine .bind ⟨c', hb'.entry, rfl, hp, by rwa [hb'.handling], .bind (hset _ _ ⟨rfl, ?_⟩)⟩
    exact Set.sdiff_eq_empty.mpr hb'.fresh.subset
  · exact hfull b' hb'.made
  · exact ⟨hb.atSlot, hb.fresh, Function.update_self .., hb.handling⟩

theorem lets_setEntry {c : CacheEntry} {Q : StatusCode → Belief → Prop} (hb : Making x e c b)
    (hx : ∃ y, x = some y ∧ y.Sets c) (hQ : ∀ status b', b'.AtRest → Q status b') :
    Lets Q b (setEntry e) := by
  refine .bind (lets_setLockedCacheEntry hb hx (fun b' hb' => ?_) fun old_entry b' hb' => ?_)
  · exact .bind (hb'.unlock fun b' hb' _ _ => .bind (hQ _ _ ⟨hb'.atSlot, hb'.fresh⟩))
  · -- the key goes to its tags once that of the old entry, if any, is gone from them
    have hadd (b' : Belief) (hb' : b'.AtRest) : Lets Q b' (do
        let entry ← readEntry e
        addKeyToTags entry.key entry.tags
        unlock (.entry e)
        return .ok) := by
      have hnew : e ∉ b'.fresh := by
        rw [hb'.fresh]
        exact Set.notMem_empty e
      refine .bind (lets_readEntry fun entry hshort _ => .bind ?_)
      have hseen : entry ∈ {x | x ∈ b'.seen ∨ x = entry ∧ e ∉ b'.fresh} := Or.inr ⟨rfl, hnew⟩
      refine lets_addKeyToTags hshort hseen (fun _ h => h) fun b'' hsame => ?_
      have hb'' : b''.AtRest := ⟨hsame.atSlot.trans hb'.atSlot, hsame.fresh.trans hb'.fresh⟩
      exact .bind (hb''.made.unlock fun b' hb' _ _ => hQ _ b' hb')
    cases old_entry with
    | none => exact hadd b' hb'
    | some old =>
      refine .bind
        (lets_readEntry fun entry _ _ => .bind (lets_removeKeyFromTags fun b₁ hsame => ?_))
      have hfresh : b₁.fresh \ {old} = ∅ := by
        rw [hsame.fresh, show b'.fresh = ∅ from hb'.fresh, Set.empty_sdiff]
      exact .bind (.bind (hadd _ ⟨hsame.atSlot.trans hb'.atSlot, hfresh⟩))

/-- The entry that is made is that of the SET, when it is with the value that is read last. -/
theorem lets_storeEntry {c : Call} {tags : List CacheTag} {total_size : UInt64} {stop : ℕ}
    {vlen ttl : UInt32} {Q : StatusCode → Belief → Prop} (hb : b.AtRest) (hkey : key.length ≤ 255)
    (hx : b.handling =
      some ⟨c, key.reverse :: tags.flatMap fun tag => [[UInt8.ofNat tag.length], tag.reverse]⟩)
    (hsets : ∀ entry : CacheEntry, entry.key = key → entry.tags = tags →
      entry.value.length = vlen.toNat → Handling.Sets ⟨c, setReads entry⟩ entry)
    (hQ : ∀ status b', b'.AtRest → Q status b') :
    Lets Q b (storeEntry key tags total_size stop vlen ttl) := by
  refine .bind (.bind (lets_reserveMemory fun r => ?_))
  cases r with
  | none => exact hQ _ b hb
  | some e =>
    refine .bind fun _ => .bind
      (.inl ⟨hb.atSlot, .bind (lets_readEntry fun entry _ _ => .bind ⟨hkey, .inl ?_, .bind ?_⟩)⟩)
    · exact Set.mem_insert e b.fresh
    · have hfresh : insert e b.fresh = {e} := by rw [hb.fresh, insert_empty_eq]
      refine lets_read (fun value hvalue => .bind fun _ => .bind fun mtime =>
        .bind ⟨hkey, .inl (Set.mem_insert e b.fresh), ?_⟩) fun status bs hs => ?_
      · refine lets_setEntry ⟨hb.atSlot, hfresh, Function.update_self .., rfl⟩
          ⟨_, ?_, hsets _ rfl rfl hvalue⟩ hQ
        change b.handling.map (·.append [value]) = _
        rw [hx]
        rfl
      · cases status with
        | ok => exact absurd rfl hs
        | _ =>
          exact .bind fun _ =>
            .bind (.bind (hQ _ _ ⟨hb.atSlot, Set.sdiff_eq_empty.mpr hfresh.subset⟩))

/-! ### DEL -/

theorem lets_releaseAll {Q : Unit → Belief → Prop} (hb : Idle x b)
    (hQ : ∀ b', b'.AtRest → Q () b') :
    Lets Q b (releaseAll key e) := by
  refine wp_iterate (fun _ b => Idle x b) hb fun e b hb => ?_
  refine .bind (hb.toAtRest.made.unlock fun b' hb' hx _ => .bind (.bind ?_))
  exact lets_lockAndUnsetCacheEntry (x := x) ⟨⟨hb'.atSlot, hb'.fresh⟩, hx.trans hb.handling⟩
    (fun b' hb' => hQ b' hb'.toAtRest) fun e c b' hf => hf.toIdle

theorem lets_deleteEntryByKey {Q : StatusCode → Belief → Prop} (hb : b.AtRest)
    (hQ : ∀ status b', b'.AtRest → Q status b') : Lets Q b (deleteEntryByKey key) := by
  refine .bind
    (lets_lockAndUnsetCacheEntry ⟨hb, rfl⟩ (fun b' hb' => hQ _ b' hb'.toAtRest) fun e c b' hf => ?_)
  refine .bind (lets_readFound hf fun b' _ hf => .bind (lets_removeKeyFromTags fun b'' hsame => ?_))
  exact .bind (lets_releaseAll ⟨hsame.atRest hf.toAtRest, rfl⟩ fun b' hb' => hQ _ b' hb')

theorem lets_deleteKeys {keys : List KeyElem} {Q : Unit → Belief → Prop} (hb : b.AtRest)
    (hQ : ∀ b', b'.AtRest → Q () b') :
    Lets Q b (deleteKeys keys) := by
  induction keys generalizing b with
  | nil => exact hQ b hb
  | cons elem next ih => exact .bind (lets_deleteEntryByKey hb fun _ b' hb' => ih hb')

theorem lets_deleteKeyList {keys : Program (List KeyElem)} {Q : Unit → Belief → Prop}
    (hkeys : All Op.OfIndex keys) (hb : b.AtRest) (hQ : ∀ b', b'.AtRest → Q () b') :
    Lets Q b (deleteKeyList keys) := by
  refine .bind
    (lets_ofIndex hkeys fun l b' hsame =>
    .bind (lets_deleteKeys (hsame.atRest hb) fun b' hb' => ?_))
  exact lets_ofIndex (index_releaseKeyList l) fun _ b'' hsame => hQ b'' (hsame.atRest hb')

/-! ### Walks -/

/-- A callback of `walk_entries` that makes no entries. -/
def Gentle {σ : Type} (callback : ℕ → σ → Program (Bool × σ)) : Prop :=
  ∀ e data b, b.fresh = ∅ → Lets (fun _ b' => b'.fresh = ∅) b (callback e data)

theorem lets_walkSlots {σ : Type} {callback : ℕ → σ → Program (Bool × σ)}
    {map : Fin NUM_CACHE_ENTRY_MAPS} {Q : σ → Belief → Prop} (hcb : Gentle callback) (n : ℕ)
    (pos : Fin CACHE_ENTRY_MAP_SIZE) (data : σ) (hb : b.AtRest)
    (hQ : ∀ data b', b'.AtRest → Q data b') : Lets Q b (walkSlots callback map n pos data) := by
  induction n generalizing pos data b with
  | zero => exact hQ data b hb
  | succ n ih =>
    refine .bind (.bind fun o => .bind (lets_readSlot fun m hm => ?_))
    cases m with
    | none => exact ih _ data ⟨rfl, hb.fresh⟩
    | some m =>
      refine .bind
        (.inr ⟨congrArg some (hm o rfl).1.symm,
        .bind
        ((hcb m.entry data { b with atSlot := true, inSlot := some o } hb.fresh).mono
        fun r b' hfresh => ?_)⟩)
      obtain ⟨unset, data⟩ := r
      cases unset with
      | false =>
        refine .bind (.bind (ih _ data ⟨rfl, ?_⟩))
        change b'.fresh \ {m.entry} = ∅
        rw [hfresh, Set.empty_sdiff]
      | true => exact .bind (.bind (ih _ data ⟨rfl, hfresh⟩))

theorem lets_walkMaps {σ : Type} {callback : ℕ → σ → Program (Bool × σ)} {Q : σ → Belief → Prop}
    (hcb : Gentle callback) (n : ℕ) (i : Fin NUM_CACHE_ENTRY_MAPS) (data : σ) (hb : b.AtRest)
    (hQ : ∀ data b', b'.AtRest → Q data b') :
    Lets Q b (walkMaps callback n i data) := by
  induction n generalizing i data b with
  | zero => exact hQ data b hb
  | succ n ih => exact .bind (lets_walkSlots hcb _ _ _ hb fun data b' hb' => ih _ data hb')

theorem lets_walkAllEntries {σ : Type} {callback : ℕ → σ → Program (Bool × σ)} {data : σ}
    {Q : σ → Belief → Prop} (hcb : Gentle callback) (hb : b.AtRest)
    (hQ : ∀ data b', b'.AtRest → Q data b') :
    Lets Q b (walkAllEntries callback data) := lets_walkMaps hcb _ _ _ hb hQ

theorem gentle_look {σ : Type} (callback : CacheEntry → σ → Bool × σ) : Gentle (look callback) :=
  fun _ _ _ hb => .bind (lets_readEntry fun _ _ _ => hb)

theorem gentle_clearUnless (keep : CacheEntry → Bool) : Gentle (clearUnless keep) := by
  intro e data b hb
  refine .bind (lets_readEntry fun entry _ _ => ?_)
  split_ifs
  · exact hb
  · refine .bind
      (.bind
      (lets_readEntry fun entry _ _ =>
      .bind (lets_removeKeyFromTags fun b' hsame => .bind (.bind ?_))))
    change b'.fresh \ {e} = ∅
    rw [hsame.fresh, show b.fresh = ∅ from hb, Set.empty_sdiff]

/-! ### The handlers -/

/-- The bytes that are sent after the response. -/
def Reply.payloadBytes (r : Reply) (stale : StaleReads) : List UInt8 :=
  match r.response_payload with
  | .null => []
  | .payloadBuffer => r.payload_buffer.base.read 0 r.payload_buffer.nmemb
  | .altPayload => stale.bytes

/-- A GET that is answered with a value has seen an entry with that value, and with the key that was
read for it. -/
def GetsSeen (c : Call) (r : Reply) (b : Belief) : Prop :=
  c.request.op = CMD_BYTE_GET → r.status = .ok →
    ∃ entry ∈ b.seen, (∀ stale, r.payloadBytes stale = entry.value) ∧
    b.handling = some ⟨c, [entry.key.reverse]⟩

variable {buffer : Payload} {request : Request}

theorem lets_handleGetRequest {c : Call} {Q : Reply → Belief → Prop} (hb : b.Begins c)
    (hQ : ∀ r b', b'.AtRest →
      (r.status = .ok → ∃ entry ∈ b'.seen, (∀ stale, r.payloadBytes stale = entry.value) ∧
        b'.handling = some ⟨c, [entry.key.reverse]⟩) → Q r b') :
    Lets Q b (handleGetRequest buffer request) := by
  refine .bind (lets_readRequestKey (fun key hkey => ?_) fun status hs => ?_)
  · have hx : (b.hear [key.reverse]).handling = some ⟨c, [key.reverse]⟩ := by
      change b.handling.map (·.append [key.reverse]) = _
      rw [hb.handling]
      rfl
    refine .bind (lets_lockAndGetCacheEntry ⟨⟨hb.atSlot, hb.fresh⟩, hx⟩
      (fun b' hb' => hQ _ b' hb'.toAtRest (by simp)) fun e c' b' hf =>
      .bind (lets_readFound hf fun b' hshort hf => ?_))
    -- what follows the check of the expiry time
    have hhit (b' : Belief) (hf : Found (some ⟨c, [key.reverse]⟩) key e c' b') : Lets Q b' (do
        writeEntry e { c' with nhits := c'.nhits + 1 }
        unlock (.entry e)
        if c'.value.length > buffer.cap then return ⟨.bug, .null, buffer⟩
        else if c'.value.length > 0 then
          return ⟨.ok, .payloadBuffer, ⟨buffer.base.write 0 c'.value, c'.value.length, buffer.cap⟩⟩
        else return ⟨.ok, .null, buffer⟩) := by
      refine .bind (lets_writeFound hf hshort ⟨rfl, rfl, rfl⟩ fun b₁ hb₁ hseen₁ => ?_)
      refine .bind (hb₁.made.unlock fun b₂ hb₂ hx₂ hseen₂ => ?_)
      have hmem : c' ∈ b₂.seen := by
        rw [hseen₂, hseen₁]
        exact hf.seen
      have hkey : b₂.handling = some ⟨c, [c'.key.reverse]⟩ := by rw [hx₂, hb₁.handling, hf.key]
      split_ifs with hcap hpos
      · exact hQ _ _ hb₂ (by simp)
      · exact hQ _ _ hb₂ fun _ => ⟨c', hmem, fun _ => ByteMemory.read_write_self _ _ _, hkey⟩
      · exact hQ _ _ hb₂ fun _ =>
          ⟨c', hmem, fun _ => (List.length_eq_zero_iff.mp (by omega)).symm, hkey⟩
    have hexpired : Lets Q b' (do unlock (.entry e); return ⟨.expired, .null, buffer⟩) :=
      .bind (hf.made.unlock fun b' hb' _ _ => hQ _ b' hb' (by simp))
    dsimp only
    by_cases hcheck : ~~~request.gFlags &&& GET_FLAG_IGNORE_EXPIRES ≠ 0 ∧
      c'.expires ≠ CACHE_EXPIRES_INIT
    · rw [if_pos hcheck]
      refine .bind (lets_time fun now => ?_)
      change Lets Q b' (if decide (c'.expires < now) = true then _ else _)
      cases decide (c'.expires < now) with
      | true => exact hexpired
      | false => exact hhit b' hf
    · rw [if_neg hcheck]
      exact hhit b' hf
  · cases status with
    | ok => exact absurd rfl hs
    | _ => exact hQ _ b hb.toAtRest (by simp)

/-- What follows the tags of a request. -/
theorem lets_withTags {ntags : UInt8} {f : List Slice → Payload → Program Reply}
    {Q : Reply → Belief → Prop} (hb : b.AtRest)
    (hf : ∀ slices buffer' b', b'.AtRest → slices.length = ntags.toNat →
      b'.handling = b.handling.map (·.append ((slices.map fun tag => tag.bytes buffer'.base).flatMap
        fun tag => [[UInt8.ofNat tag.length], tag.reverse])) → Lets Q b' (f slices buffer'))
    (hQ : ∀ r b', b'.AtRest → Q r b') :
    Lets Q b (do
      match ← readTagsUsingPayloadBuffer buffer ntags with
      | (.ok, slices, buffer) => f slices buffer
      | (status, _, buffer) => return ⟨status, .null, buffer⟩) := by
  refine .bind
    (lets_readTags
    (fun slices buffer' hntags => hf slices buffer' _ ⟨hb.atSlot, hb.fresh⟩ hntags rfl)
    fun status slices buffer' b' hs hsame => ?_)
  cases status with
  | ok => exact absurd rfl hs
  | _ => exact hQ _ b' (hsame.atRest hb)

theorem lets_handleSetRequest {c : Call} {Q : Reply → Belief → Prop} (hb : b.Begins c)
    (hop : c.request.op = CMD_BYTE_SET) (hQ : ∀ r b', b'.AtRest → Q r b') :
    Lets Q b (handleSetRequest buffer c.request) := by
  refine .bind (lets_readRequestKey (fun key hkey => ?_) fun status hs => ?_)
  · dsimp only
    split_ifs with hflags
    · exact .bind (lets_renewTtl ⟨⟨hb.atSlot, hb.fresh⟩, rfl⟩ fun status b' hb' => hQ _ b' hb')
    · refine lets_withTags ⟨hb.atSlot, hb.fresh⟩ (fun slices buffer' b' hb' hntags hx => ?_) hQ
      generalize setTotalSize (slices.map Slice.nmemb) c.request.sKlen
        (ntohl c.request.sVlen) = total_size
      have hshort : key.length ≤ 255 := by
        rw [hkey]
        exact Nat.le_of_lt_succ (UInt8.toNat_lt _)
      refine .bind
        (lets_storeEntry (c := c) hb' hshort ?_ (fun entry hk ht hv => ?_)
          fun status b' hb' => hQ _ b' hb')
      · rw [hx,
          show (b.hear [key.reverse]).handling = b.handling.map (·.append [key.reverse]) from rfl,
          hb.handling]
        rfl
      · exact ⟨hop, not_not.mp hflags,
          by rw [hk, hkey], by rw [ht, List.length_map, hntags], hv, rfl⟩
  · cases status with
    | ok => exact absurd rfl hs
    | _ => exact hQ _ b hb.toAtRest

theorem lets_handleDelRequest {Q : Reply → Belief → Prop} (hb : b.AtRest)
    (hQ : ∀ r b', b'.AtRest → Q r b') :
    Lets Q b (handleDelRequest buffer request) := by
  refine .bind (lets_readRequestKey (fun key hkey => ?_) fun status hs => ?_)
  · exact .bind (lets_deleteEntryByKey ⟨hb.atSlot, hb.fresh⟩ fun status b' hb' => hQ _ b' hb')
  · cases status with
    | ok => exact absurd rfl hs
    | _ => exact hQ _ b hb

theorem lets_handleClrRequest {Q : Reply → Belief → Prop} (hb : b.AtRest)
    (hQ : ∀ r b', b'.AtRest → Q r b') :
    Lets Q b (handleClrRequest buffer request) := by
  refine lets_withTags hb (fun slices buffer b hb _ _ => ?_) hQ
  have hwalk (keep : CacheEntry → Bool) : Lets Q b (do
      walkAllEntries (clearUnless keep) ()
      return ⟨.ok, .null, buffer⟩) :=
    .bind (lets_walkAllEntries (gentle_clearUnless keep) hb fun _ b' hb' => hQ _ b' hb')
  have hdelete {keys : Program (List KeyElem)} (hkeys : All Op.OfIndex keys) : Lets Q b (do
      deleteKeyList keys
      return ⟨.ok, .null, buffer⟩) := .bind (lets_deleteKeyList hkeys hb fun b' hb' => hQ _ b' hb')
  dsimp only
  split_ifs
  · exact hwalk _
  · exact .bind fun now => hwalk (keepsOld now)
  · exact hwalk _
  · exact hdelete (index_getKeysMatchingAllTags _)
  · exact hdelete (index_getKeysMatchingAnyTag _)
  · exact hQ _ b hb

theorem lets_handleLstRequest {Q : Reply → Belief → Prop} (hb : b.AtRest)
    (hQ : ∀ r b', b'.AtRest → Q r b') :
    Lets Q b (handleLstRequest buffer request) := by
  refine lets_withTags hb (fun slices buffer b hb _ _ => ?_) hQ
  have hkeys {keys : Program (List KeyElem)} (hkeys : All Op.OfIndex keys) (data : ListData) :
      Lets Q b (do
      return .listed (← listKeyList keys data) buffer.cap) := by
    refine .bind (.bind (lets_ofIndex hkeys fun l b' hsame => .bind ?_))
    exact lets_ofIndex (index_releaseKeyList l) fun _ b'' hsame' =>
      hQ _ b'' ((hsame.trans hsame').atRest hb)
  dsimp only
  split_ifs
  · exact .bind (lets_walkAllEntries (gentle_look _) hb fun _ b' hb' => hQ _ b' hb')
  · exact .bind (lets_ofIndex (index_walkAllTags _ _) fun _ b' hsame => hQ _ b' (hsame.atRest hb))
  · exact .bind (lets_walkAllEntries (gentle_look _) hb fun _ b' hb' => hQ _ b' hb')
  · exact hkeys (index_getKeysMatchingAllTags _) _
  · exact hkeys (index_getKeysMatchingAnyTag _) _
  · exact hQ _ b hb

theorem lets_handleNfoRequest {Q : Reply → Belief → Prop} (hb : b.AtRest)
    (hQ : ∀ r b', b'.AtRest → Q r b') :
    Lets Q b (handleNfoRequest buffer request) := by
  unfold handleNfoRequest
  dsimp only
  split_ifs
  · refine .bind (lets_readRequestKey (fun key hkey => ?_) fun status hs => ?_)
    · refine .bind
        (lets_lockAndGetCacheEntry ⟨⟨hb.atSlot, hb.fresh⟩, rfl⟩ (fun b' hb' => hQ _ b' hb'.toAtRest)
        fun e c b' hf => .bind (lets_readFound hf fun b' _ hf => ?_))
      exact .bind (hf.made.unlock fun b' hb' _ _ => hQ _ b' hb')
    · cases status with
      | ok => exact absurd rfl hs
      | _ => exact hQ _ b hb
  · exact .bind fun _ => hQ _ b hb

/-- Every request is handled by a worker that begins to, and leaves it at rest. -/
theorem lets_handleRequest (c : Call) (hb : b.Begins c) :
    Lets (fun r b' => b'.AtRest ∧ GetsSeen c r b') b (handleRequest c) := by
  have hother {p : Program Reply} (hop : c.request.op ≠ CMD_BYTE_GET)
      (hp : ∀ {Q : Reply → Belief → Prop}, (∀ r b', b'.AtRest → Q r b') → Lets Q b p) :
      Lets (fun r b' => b'.AtRest ∧ GetsSeen c r b') b p :=
      hp fun r b' hb' => ⟨hb', fun h => absurd h hop⟩
  unfold handleRequest
  dsimp only
  split_ifs with hctl hget hset
  · exact ⟨hb.toAtRest, by simp [GetsSeen]⟩
  · exact lets_handleGetRequest hb fun r b' hb' hr => ⟨hb', fun _ => hr⟩
  · exact hother hget fun hQ => lets_handleSetRequest hb hset hQ
  · exact hother hget fun hQ => lets_handleDelRequest hb.toAtRest hQ
  · exact hother hget fun hQ => lets_handleClrRequest hb.toAtRest hQ
  · exact hother hget fun hQ => lets_handleLstRequest hb.toAtRest hQ
  · exact hother hget fun hQ => lets_handleNfoRequest hb.toAtRest hQ
  · exact hother hget fun hQ => hQ _ b hb.toAtRest

end Guarded

end Cik

import Cik.Interleaving.Blocks
import Cik.Theory.Handling

/-!
# Requests that fail

A worker handles a request while no other does anything. When the status is not `ok`,
the slots, the entries in them (but for how often they were got), the tag index and the
live blocks are as before, and the worker has no guard (`failed_unchanged`). Up to the
point where a handler can fail no more it only reads what the request found, and writes
to nothing but an entry that it has reserved itself.
-/

namespace Cik

namespace Guarded

open Prog (wp wp_bind All all_pure all_iterate wp_of_all)
open Contract (alone alone_run wp_alone_of_forall)

variable {τ : Type*} {D : Set ℕ} {s₀ s s' : Process τ} {t : τ} {o : Op} {α β : Type}
  {key : CacheKey} {tag : CacheTag}

/-! ### What is as before -/

/-- An entry as before, but for how often it was got. -/
def SameEntry (e e' : CacheEntry) : Prop :=
  e'.key = e.key ∧ e'.value = e.value ∧ e'.tags = e.tags ∧ e'.mtime = e.mtime ∧
    e'.expires = e.expires

/-- The slots and the tag index are as before, and the entries at some addresses. -/
structure Kept (D : Set ℕ) (s s' : Process τ) : Prop where
  /-- The slots. -/
  slots : s'.slots = s.slots
  /-- The tags of the nodes. -/
  tag : s'.tag = s.tag
  /-- The tree. -/
  child : s'.child = s.child
  /-- The key lists. -/
  keys : s'.keys = s.keys
  /-- The entries. -/
  entries : ∀ e ∈ D, SameEntry (s.entries e) (s'.entries e)

theorem SameEntry.refl (e : CacheEntry) : SameEntry e e := ⟨rfl, rfl, rfl, rfl, rfl⟩

theorem Kept.refl (s : Process τ) : Kept D s s := ⟨rfl, rfl, rfl, rfl, fun _ _ => .refl _⟩

/-- The operations that leave all this as it is. -/
def Op.Spares (D : Set ℕ) : Op → Prop
  | .writeSlot _ _ => False
  | .writeEntry e _ => e ∉ D
  | .initEntry e => e ∉ D
  | .initNode _ _ => False
  | .exchangeChild _ _ _ => False
  | .writeKeys _ _ => False
  | _ => True

/-- Guards are taken and released beside it. -/
theorem Kept.setHolder (hs : Kept D s₀ s) (x : Guard) (w : Option τ) :
    Kept D s₀ (s.setHolder x w) := by
  cases x <;> exact ⟨hs.slots, hs.tag, hs.child, hs.keys, hs.entries⟩

/-- An entry at another address is written. -/
theorem Kept.update (hs : Kept D s₀ s) {e : ℕ} (he : e ∉ D) (v : CacheEntry) (e' : ℕ)
    (hD : e' ∈ D) :
    SameEntry (s₀.entries e') (Function.update s.entries e v e') := by
  have hne : e' ≠ e := fun heq => he (heq ▸ hD)
  rw [Function.update_of_ne hne]
  exact hs.entries e' hD

theorem Kept.of_act (hs : Kept D s₀ s) (ho : o.Spares D) {r : o.Answer} (ha : o.act t s r s') :
    Kept D s₀ s' := by
  cases o with
  | lock x =>
    obtain ⟨-, rfl⟩ := ha
    exact hs.setHolder x _
  | tryLock x =>
    obtain ⟨-, rfl⟩ := ha
    split_ifs
    · exact hs.setHolder x _
    · exact hs
  | unlock x =>
    obtain rfl : s' = _ := ha
    exact hs.setHolder x _
  | writeEntry e v =>
    obtain rfl : s' = _ := ha
    exact ⟨hs.slots, hs.tag, hs.child, hs.keys, hs.update ho v⟩
  | initEntry e =>
    obtain ⟨now, rfl⟩ := ha
    exact ⟨hs.slots, hs.tag, hs.child, hs.keys, hs.update ho _⟩
  | bucket p =>
    cases r with
    | none =>
      obtain rfl : s' = s := ha
      exact hs
    | some b =>
      obtain ⟨-, -, rfl⟩ := ha
      exact ⟨hs.slots, hs.tag, hs.child, hs.keys, hs.entries⟩
  | release b =>
    obtain ⟨-, rfl⟩ := ha
    exact ⟨hs.slots, hs.tag, hs.child, hs.keys, hs.entries⟩
  | crash => exact r.elim
  | writeSlot | initNode | exchangeChild | writeKeys => exact ho.elim
  | fill | time | info =>
    obtain rfl : s' = s := ha
    exact hs
  | _ =>
    obtain ⟨-, rfl⟩ := ha
    exact hs

/-- A program of such operations. -/
theorem wp_spares {p : Program α} {Q : α → Process τ → Prop} (hp : All (Op.Spares D) p)
    (hs : Kept D s₀ s) (hQ : ∀ a s', Kept D s₀ s' → Q a s') : wp (alone Op.act t) p Q s :=
  wp_of_all (fun _ _ ho hs _ _ ha => Kept.of_act hs ho ha) hp hQ hs

theorem wp_spares_bind {p : Program α} {f : α → Program β} {Q : β → Process τ → Prop}
    (hp : All (Op.Spares D) p) (hs : Kept D s₀ s)
    (hQ : ∀ a s', Kept D s₀ s' → wp (alone Op.act t) (f a) Q s') :
    wp (alone Op.act t) (p >>= f) Q s := (wp_bind _ _).mpr (wp_spares hp hs hQ)

theorem spares_op (ho : o.Spares D) : All (Op.Spares D) (.op o .pure : Program o.Answer) :=
  ⟨ho, fun _ => trivial⟩

/-! ### Functions that only read -/

theorem spares_reserveMemory (size : UInt32) : All (Op.Spares D) (reserveMemory size) := by
  unfold reserveMemory
  cases partitionSizes.find? (size.toNat ≤ ·) with
  | none => exact all_pure
  | some p =>
    refine .bind (spares_op trivial) fun b => ?_
    cases b
    · exact spares_op trivial
    · exact .bind (spares_op trivial) fun _ => spares_op trivial

theorem spares_createKeyElem (key : CacheKey) : All (Op.Spares D) (createKeyElem key) := by
  refine (spares_reserveMemory _).bind fun b => ?_
  cases b <;> exact all_pure

theorem spares_insertIfUnique (list : List KeyElem) (key : CacheKey) :
    All (Op.Spares D) (insertIfUnique list key) := by
  unfold insertIfUnique
  split_ifs
  · exact all_pure
  · refine (spares_createKeyElem key).bind fun elem => ?_
    cases elem <;> exact all_pure

theorem spares_getTagIfExists (tag : CacheTag) : All (Op.Spares D) (getTagIfExists tag) := by
  refine all_iterate (fun current => ?_) root
  refine .bind (spares_op trivial) fun t => ?_
  cases compareTags tag t with
  | eq => exact all_pure
  | lt => exact .bind (spares_op trivial) fun _ => all_pure
  | gt => exact .bind (spares_op trivial) fun _ => all_pure

theorem spares_copyKeyList (list : List KeyElem) : All (Op.Spares D) (copyKeyList list) := by
  induction list with
  | nil => exact all_pure
  | cons elem next ih =>
    rw [copyKeyList]
    refine (spares_createKeyElem _).bind fun copy => ?_
    cases copy with
    | none =>
      dsimp only
      split_ifs
      · exact all_pure
      · exact ⟨trivial, fun r => r.elim⟩
    | some copy => exact ih.bind fun _ => all_pure

theorem spares_getKeyListCopyByTag (tag : CacheTag) :
    All (Op.Spares D) (getKeyListCopyByTag tag) := by
  refine (spares_getTagIfExists tag).bind fun node => ?_
  cases node with
  | none => exact all_pure
  | some node =>
    refine .bind (spares_op trivial) fun _ => .bind (spares_op trivial) fun l => ?_
    exact (spares_copyKeyList l).bind fun _ => .bind (spares_op trivial) fun _ => all_pure

theorem spares_releaseKeyList (list : List KeyElem) : All (Op.Spares D) (releaseKeyList list) := by
  induction list with
  | nil => exact all_pure
  | cons elem next ih => exact .bind (spares_op trivial) fun _ => ih

theorem spares_mergeKeys (found keys : List KeyElem) :
    All (Op.Spares D) (mergeKeys found keys) := by
  induction keys generalizing found with
  | nil => exact all_pure
  | cons elem next ih => exact (spares_insertIfUnique found elem.key).bind fun r => ih r.1

theorem spares_retainKeys (keys found : List KeyElem) :
    All (Op.Spares D) (retainKeys keys found) := by
  induction found with
  | nil => exact all_pure
  | cons elem next ih =>
    rw [retainKeys]
    split_ifs
    · exact ih.bind fun _ => all_pure
    · exact .bind (spares_op trivial) fun _ => ih

theorem spares_combineTags {combine : List KeyElem → List KeyElem → Program (List KeyElem)}
    (hc : ∀ found keys, All (Op.Spares D) (combine found keys)) (tags : List CacheTag)
    (found : List KeyElem) :
    All (Op.Spares D) (combineTags combine tags found) := by
  induction tags generalizing found with
  | nil => exact all_pure
  | cons tag tags ih =>
    refine (spares_getKeyListCopyByTag tag).bind fun keys => (hc found keys).bind fun found => ?_
    exact (spares_releaseKeyList keys).bind fun _ => ih found

theorem spares_getKeysMatchingAnyTag (tags : List CacheTag) :
    All (Op.Spares D) (getKeysMatchingAnyTag tags) := by
  cases tags with
  | nil => exact all_pure
  | cons tag tags =>
    exact (spares_getKeyListCopyByTag tag).bind fun _ => spares_combineTags spares_mergeKeys tags _

theorem spares_getKeysMatchingAllTags (tags : List CacheTag) :
    All (Op.Spares D) (getKeysMatchingAllTags tags) := by
  cases tags with
  | nil => exact all_pure
  | cons tag tags =>
    refine (spares_getKeyListCopyByTag tag).bind fun _ =>
      spares_combineTags (fun found keys => ?_) tags _
    exact spares_retainKeys keys found

theorem spares_pushLeft (current : Option ℕ) (stack : List TagElem) :
    All (Op.Spares D) (pushLeft current stack) := by
  refine all_iterate (fun (current, stack) => ?_) _
  cases current with
  | none => exact all_pure
  | some node =>
    refine (spares_reserveMemory _).bind fun tmp => ?_
    cases tmp with
    | none => exact ⟨trivial, fun r => r.elim⟩
    | some tmp => exact .bind (spares_op trivial) fun _ => all_pure

theorem spares_walkAllTags {σ : Type} (callback : CacheTag → σ → σ) (data : σ) :
    All (Op.Spares D) (walkAllTags callback data) := by
  refine all_iterate (fun (current, stack, data) => ?_) _
  dsimp only
  split_ifs
  · exact all_pure
  · refine (spares_pushLeft current stack).bind fun stack => ?_
    cases stack with
    | nil => exact ⟨trivial, fun r => r.elim⟩
    | cons tmp stack =>
      refine .bind (spares_op trivial) fun _ => .bind (spares_op trivial) fun _ =>
        .bind (spares_op trivial) fun keys => ?_
      refine .bind (spares_op trivial) fun _ => ?_
      split_ifs
      · refine .bind (spares_op trivial) fun _ => .bind all_pure fun _ => ?_
        exact .bind (spares_op trivial) fun _ => all_pure
      · exact .bind all_pure fun _ => .bind (spares_op trivial) fun _ => all_pure

/-! ### Walks and searches -/

theorem spares_probe {visit : SlotPos → Program (Option α)} (hv : ∀ p, All (Op.Spares D) (visit p))
    (map : Fin NUM_CACHE_ENTRY_MAPS) (n : ℕ) (pos : Fin CACHE_ENTRY_MAP_SIZE) :
    All (Op.Spares D) (probe visit map n pos) := by
  induction n generalizing pos with
  | zero => exact all_pure
  | succ n ih =>
    refine (hv _).bind fun r => ?_
    cases r with
    | none => exact ih _
    | some a => exact all_pure

theorem spares_visitKey {found : SlotPos → ℕ → Program α}
    (hf : ∀ p e, All (Op.Spares D) (found p e)) (p : SlotPos) :
    All (Op.Spares D) (visitKey key found p) := by
  refine .bind (spares_op trivial) fun _ => .bind (spares_op trivial) fun slot => ?_
  cases slot with
  | none => exact .bind (spares_op trivial) fun _ => all_pure
  | some slot =>
    dsimp only
    split_ifs
    · refine .bind (spares_op trivial) fun _ => .bind (spares_op trivial) fun entry => ?_
      split_ifs
      · exact (hf _ _).bind fun _ => all_pure
      · refine .bind (spares_op trivial) fun _ => .bind (spares_op trivial) fun _ => all_pure
    · exact .bind (spares_op trivial) fun _ => all_pure

theorem spares_lockAndGetCacheEntry (key : CacheKey) :
    All (Op.Spares D) (lockAndGetCacheEntry key) := by
  refine .bind (spares_probe (spares_visitKey fun p e => ?_) _ _ _) fun _ => all_pure
  exact .bind (spares_op trivial) fun _ => spares_op trivial

theorem spares_visitOpen (e : ℕ) (p : SlotPos) : All (Op.Spares D) (visitOpen key e p) := by
  refine .bind (spares_op trivial) fun _ => .bind (spares_op trivial) fun slot => ?_
  cases slot with
  | none => exact all_pure
  | some slot =>
    dsimp only
    split_ifs
    · exact .bind (spares_op trivial) fun _ => all_pure
    · refine .bind (spares_op trivial) fun _ => .bind (spares_op trivial) fun entry => ?_
      split_ifs
      · exact all_pure
      · exact .bind (spares_op trivial) fun _ => .bind (spares_op trivial) fun _ => all_pure
    · exact .bind (spares_op trivial) fun _ => all_pure

theorem spares_visitEntry_look {σ : Type} {callback : CacheEntry → σ → Bool × σ}
    (hc : ∀ e data, (callback e data).1 = false) (p : SlotPos) (data : σ) :
    All (Op.Spares D) (visitEntry (look callback) p data) := by
  refine .bind (spares_op trivial) fun _ => .bind (spares_op trivial) fun slot => ?_
  cases slot with
  | none => exact .bind (spares_op trivial) fun _ => all_pure
  | some slot =>
    -- the callback answers that the slot is not to be cleared
    refine .bind (spares_op trivial) fun _ => ⟨trivial, fun entry => ?_⟩
    obtain ⟨data', hx⟩ : ∃ data', callback entry data = (false, data') :=
      ⟨_, Prod.ext (hc entry data) rfl⟩
    change All (Op.Spares D) (Prog.bind (pure (callback entry data)) _)
    rw [hx]
    change All (Op.Spares D)
      (unlock (.entry slot.entry) >>= fun _ => unlock (.slot p) >>= fun _ => pure data')
    exact .bind (spares_op trivial) fun _ => .bind (spares_op trivial) fun _ => all_pure

theorem spares_walkAllEntries_look {σ : Type} {callback : CacheEntry → σ → Bool × σ}
    (hc : ∀ e data, (callback e data).1 = false) (data : σ) :
    All (Op.Spares D) (walkAllEntries (look callback) data) := by
  have hslots (map : Fin NUM_CACHE_ENTRY_MAPS) (n : ℕ) (pos : Fin CACHE_ENTRY_MAP_SIZE) (data : σ) :
      All (Op.Spares D) (walkSlots (look callback) map n pos data) := by
    induction n generalizing pos data with
    | zero => exact all_pure
    | succ n ih => exact (spares_visitEntry_look hc _ data).bind fun data => ih _ data
  have hmaps (n : ℕ) (i : Fin NUM_CACHE_ENTRY_MAPS) (data : σ) :
      All (Op.Spares D) (walkMaps (look callback) n i data) := by
    induction n generalizing i data with
    | zero => exact all_pure
    | succ n ih => exact (hslots i _ _ data).bind fun data => ih _ data
  exact hmaps _ _ data

/-! ### What is read from the client -/

/-- The operation is a read, or the end of the process. -/
def Op.IsRead : Op → Prop
  | .read _ => True
  | .crash => True
  | _ => False

theorem Op.IsRead.spares (h : o.IsRead) : o.Spares D := by
  cases o <;> first | exact h.elim | trivial

theorem reads_op {n : ℕ} :
    All Op.IsRead (.op (.read n) .pure : Program (StatusCode × List UInt8)) :=
  ⟨trivial, fun _ => trivial⟩

theorem reads_crash : All Op.IsRead (crash : Program α) := ⟨trivial, fun r => r.elim⟩

theorem reads_readRequestKey (klen : UInt8) : All Op.IsRead (readRequestKey klen) := by
  refine .bind reads_op fun r => ?_
  obtain ⟨status, bs⟩ := r
  cases status with
  | ok =>
    dsimp only
    split_ifs
    · exact reads_crash
    · exact all_pure
  | _ => exact all_pure

theorem reads_readTagsLoop (ntags : ℕ) (base : ByteMemory) (buffer cap : ℕ) (tags : List Slice) :
    All Op.IsRead (readTagsLoop ntags base buffer cap tags) := by
  induction ntags generalizing base buffer cap tags with
  | zero => exact all_pure
  | succ ntags ih =>
    refine .bind reads_op fun r => ?_
    obtain ⟨status, bs⟩ := r
    cases status with
    | ok =>
      dsimp only
      split_ifs
      · exact all_pure
      · -- an empty tag
        refine .bind reads_op fun r => ?_
        obtain ⟨status, bs⟩ := r
        cases status <;> first | exact all_pure | exact reads_crash
      · refine .bind reads_op fun r => ?_
        obtain ⟨status, bs⟩ := r
        cases status <;> first | exact all_pure | exact ih _ _ _ _
    | _ => exact all_pure

theorem reads_readTagsUsingPayloadBuffer (buffer : Payload) (ntags : UInt8) :
    All Op.IsRead (readTagsUsingPayloadBuffer buffer ntags) :=
  (reads_readTagsLoop _ _ _ _ _).bind fun _ => all_pure

/-- What is shared is as before a program that only reads from the client. -/
theorem wp_reads_bind {p : Program α} {f : α → Program β} {Q : β → Process τ → Prop}
    (hp : All Op.IsRead p) (hf : ∀ a, wp (alone Op.act t) (f a) Q s) :
    wp (alone Op.act t) (p >>= f) Q s := by
  refine (wp_bind _ _).mpr (wp_of_all (I := fun s' => s' = s) (fun o s' ho hs r s'' ha => ?_) hp
    (fun a s' hs => by rw [hs]; exact hf a) rfl)
  cases o with
  | read n =>
    obtain ⟨-, rfl⟩ := ha
    exact hs
  | crash => exact r.elim
  | _ => exact ho.elim

/-! ### Handlers -/

/-- What holds of a request that is handled alone: if it fails, all is kept. -/
def KeptUnlessOk (D : Set ℕ) (s : Process τ) (reply : Reply) (s' : Process τ) : Prop :=
  reply.status ≠ .ok → Kept D s s'

/-- What follows, whatever the state is then. -/
theorem wp_any_bind {p : Program α} {f : α → Program β} {Q : β → Process τ → Prop}
    (h : ∀ a s, wp (alone Op.act t) (f a) Q s) : wp (alone Op.act t) (p >>= f) Q s :=
  (wp_bind _ _).mpr (wp_alone_of_forall h p)

/-- A request whose status does not matter. -/
theorem wp_kept {p : Program Reply} (hp : All (Op.Spares D) p) (hs : Kept D s₀ s) :
    wp (alone Op.act t) p (KeptUnlessOk D s₀) s := wp_spares hp hs fun _ _ hs' _ => hs'

/-- An entry is got once more. -/
theorem wp_countHit {e : ℕ} {n : UInt32} {p : Program Reply} (hp : All (Op.Spares D) p)
    (hs : Kept D s₀ s) :
    wp (alone Op.act t) (writeEntry e { s.entries e with nhits := n } >>= fun _ => p)
      (KeptUnlessOk D s₀) s := by
  refine (wp_bind _ _).mpr ?_
  rintro - s' rfl
  refine wp_kept hp ⟨hs.slots, hs.tag, hs.child, hs.keys, fun e' hD => ?_⟩
  by_cases he : e' = e
  · subst he
    simp only [Function.update_self]
    exact hs.entries e' hD
  · simp only [Function.update_of_ne he]
    exact hs.entries e' hD

/-- The clock is read only where the test needs it. -/
theorem wp_timeIf {c : Prop} [Decidable c] {test : Time → Bool} {f : Bool → Program α}
    {Q : α → Process τ → Prop} (h : ∀ b, wp (alone Op.act t) (f b) Q s) : wp (alone Op.act t)
      (if c then time >>= fun now => pure (test now) >>= f else pure false >>= f) Q s := by
  split_ifs
  · refine (wp_bind _ _).mpr ?_
    rintro now s' rfl
    exact h _
  · exact h false

theorem wp_handleGetRequest_alone (buffer : Payload) (r : Request) :
    wp (alone Op.act t) (handleGetRequest buffer r) (KeptUnlessOk D s) s := by
  refine wp_reads_bind (reads_readRequestKey _) fun ⟨status, key⟩ => ?_
  cases status with
  | ok =>
    refine wp_spares_bind (D := D) (spares_lockAndGetCacheEntry key) (.refl s) fun e s₁ hs₁ => ?_
    cases e with
    | none => exact wp_kept all_pure hs₁
    | some e =>
      refine (wp_bind _ _).mpr ?_
      rintro entry s₂ ⟨rfl, rfl⟩
      refine Iff.mpr Prog.wp_pure ?_
      have hfound : All (Op.Spares D) (unlock (.entry e) >>= fun _ =>
          if (s₂.entries e).value.length > buffer.cap then pure ⟨.bug, .null, buffer⟩
          else if (s₂.entries e).value.length > 0 then
            pure ⟨.ok, .payloadBuffer,
              ⟨buffer.base.write 0 (s₂.entries e).value, (s₂.entries e).value.length, buffer.cap⟩⟩
          else pure ⟨.ok, .null, buffer⟩ : Program Reply) := by
        refine .bind (spares_op trivial) fun _ => ?_
        split_ifs <;> exact all_pure
      refine wp_timeIf fun expired => ?_
      cases expired with
      | true => exact wp_kept (.bind (spares_op trivial) fun _ => all_pure) hs₁
      | false => exact wp_countHit hfound hs₁
  | _ => exact wp_kept all_pure (.refl s)

/-- The status of a part of a handler is its reply's. -/
theorem wp_reply {p : Program StatusCode} {buffer : Payload}
    (hp : wp (alone Op.act t) p (fun status s' => status ≠ .ok → Kept D s s') s) :
    wp (alone Op.act t) (p >>= fun status => pure ⟨status, .null, buffer⟩) (KeptUnlessOk D s) s :=
  (wp_bind _ _).mpr hp

theorem wp_renewTtl_alone (ttl : UInt32) :
    wp (alone Op.act t) (renewTtl key ttl) (fun status s' => status ≠ .ok → Kept D s s') s := by
  refine wp_spares_bind (D := D) (spares_lockAndGetCacheEntry key) (.refl s) fun e s₁ hs₁ => ?_
  cases e with
  | none => exact fun _ => hs₁
  | some e =>
    refine wp_any_bind fun entry s₂ => ?_
    dsimp only
    split_ifs
    · exact wp_any_bind fun _ _ => wp_any_bind fun _ _ => absurd rfl
    · exact wp_any_bind fun _ _ => wp_any_bind fun _ _ => wp_any_bind fun _ _ => absurd rfl

/-- A block that is reserved is not one of those that were live. -/
theorem wp_reserveMemory_alone (size : UInt32) (hD : ∀ e ∈ D, s.live e = true) :
    wp (alone Op.act t) (reserveMemory size) (fun r s' => Kept D s s' ∧ ∀ b, r = some b →
      b ∉ D) s := by
  unfold reserveMemory
  cases partitionSizes.find? (size.toNat ≤ ·) with
  | none => exact ⟨.refl s, nofun⟩
  | some p =>
    have hbucket {s' : Process τ} (hs' : Kept D s s') (hlive : s'.live = s.live) :
        wp (alone Op.act t) (bucket p) (fun r s' => Kept D s s' ∧ ∀ b, r = some b → b ∉ D) s' := by
      rintro r s'' ha
      refine ⟨hs'.of_act (o := .bucket p) trivial ha, ?_⟩
      rintro b rfl hb
      have hfree : s'.live b = false := ha.1
      rw [hlive, hD b hb] at hfree
      cases hfree
    refine (wp_bind _ _).mpr ?_
    rintro marked s₁ ha
    have hs₁ : Kept D s s₁ := (Kept.refl s).of_act (o := .tryLock (.list p)) trivial ha
    obtain ⟨-, rfl⟩ := ha
    cases marked with
    | false => exact hbucket hs₁ rfl
    | true =>
      refine (wp_bind _ _).mpr ?_
      rintro _ s₂ ha₂
      have hs₂ := hs₁.of_act (o := .unlock (.list p)) trivial ha₂
      obtain rfl : s₂ = _ := ha₂
      exact hbucket hs₂ rfl

-- which partition a size belongs to does not matter below
attribute [local irreducible] reserveMemory

theorem wp_setLockedCacheEntry_alone (e : ℕ) (hs : Kept D s₀ s) :
    wp (alone Op.act t) (setLockedCacheEntry e) (fun r s' => r.1 = false → Kept D s₀ s') s := by
  refine wp_spares_bind (D := D) (spares_op trivial) hs fun entry s₁ hs₁ => ?_
  refine wp_spares_bind (D := D) (spares_probe (spares_visitOpen e) _ _ _) hs₁ fun r s₂ hs₂ => ?_
  cases r with
  | none => exact fun _ => hs₂
  | some r =>
    cases r with
    | already => exact nofun
    | found p occupant => exact wp_any_bind fun _ _ => wp_any_bind fun _ _ => nofun

theorem wp_setEntry_alone (e : ℕ) (hs : Kept D s₀ s) :
    wp (alone Op.act t) (setEntry e) (fun status s' => status ≠ .ok → Kept D s₀ s') s := by
  refine (wp_bind _ _).mpr (Prog.wp_mono _ (fun r s₁ hs₁ => ?_) (wp_setLockedCacheEntry_alone e hs))
  obtain ⟨stored, old⟩ := r
  cases stored with
  | false =>
    refine wp_spares_bind (D := D) (spares_op trivial) (hs₁ rfl) fun _ s₂ hs₂ => ?_
    exact wp_spares_bind (D := D) (spares_op trivial) hs₂ fun _ s₃ hs₃ _ => hs₃
  | true =>
    have hrest (s : Process τ) : wp (alone Op.act t) (do
        let entry ← readEntry e
        addKeyToTags entry.key entry.tags
        unlock (.entry e)
        return StatusCode.ok) (fun status s' => status ≠ .ok → Kept D s₀ s') s :=
      wp_any_bind fun _ _ => wp_any_bind fun _ _ => wp_any_bind fun _ _ => absurd rfl
    cases old with
    | none => exact hrest s₁
    | some old =>
      exact wp_any_bind fun _ _ => wp_any_bind fun _ _ => wp_any_bind fun _ _ =>
        wp_any_bind fun _ _ => hrest _

theorem wp_storeEntry_alone (tags : List CacheTag) (total_size : UInt64) (stop : ℕ)
    (vlen ttl : UInt32) (hD : ∀ e ∈ D, s.live e = true) :
    wp (alone Op.act t) (storeEntry key tags total_size stop vlen ttl)
      (fun status s' => status ≠ .ok → Kept D s s') s := by
  -- `reserve_and_lock_entry`
  have hreserve : wp (alone Op.act t) (reserveAndLockEntry total_size)
      (fun r s' => Kept D s s' ∧ ∀ e, r = some e → e ∉ D) s := by
    refine (wp_bind _ _).mpr (Prog.wp_mono _ (fun r s₁ hs₁ => ?_) (wp_reserveMemory_alone _ hD))
    cases r with
    | none => exact ⟨hs₁.1, nofun⟩
    | some e =>
      have he := hs₁.2 e rfl
      refine wp_spares_bind (D := D) (spares_op he) hs₁.1 fun _ s₂ hs₂ => ?_
      refine wp_spares_bind (D := D) (spares_op trivial) hs₂ fun _ s₃ hs₃ => ⟨hs₃, ?_⟩
      rintro e' ⟨⟩
      exact he
  refine (wp_bind _ _).mpr (Prog.wp_mono _ (fun r s₁ hs₁ => ?_) hreserve)
  cases r with
  | none => exact fun _ => hs₁.1
  | some e =>
    have he := hs₁.2 e rfl
    refine wp_spares_bind (D := D) (spares_op trivial) hs₁.1 fun entry s₂ hs₂ => ?_
    refine wp_spares_bind (D := D) (spares_op he) hs₂ fun _ s₃ hs₃ => ?_
    refine wp_spares_bind (D := D) (spares_op trivial) hs₃ fun r s₄ hs₄ => ?_
    obtain ⟨status, value⟩ := r
    have hfail (status : StatusCode) (bytes : ℕ) : wp (alone Op.act t) (do
        fill e (entrySize total_size) bytes
        unlock (.entry e)
        release e
        return status) (fun status s' => status ≠ .ok → Kept D s s') s₄ :=
      wp_spares_bind (D := D) (spares_op trivial) hs₄ fun _ s₅ hs₅ =>
        wp_spares_bind (D := D) (spares_op trivial) hs₅ fun _ s₆ hs₆ =>
          wp_spares_bind (D := D) (spares_op trivial) hs₆ fun _ s₇ hs₇ _ => hs₇
    cases status with
    | ok =>
      refine wp_spares_bind (D := D) (spares_op trivial) hs₄ fun _ s₅ hs₅ => ?_
      refine wp_spares_bind (D := D) (spares_op trivial) hs₅ fun now s₆ hs₆ => ?_
      exact wp_spares_bind (D := D) (spares_op he) hs₆ fun _ s₇ hs₇ => wp_setEntry_alone e hs₇
    | _ => exact hfail _ _

theorem wp_handleSetRequest_alone (buffer : Payload) (r : Request) (hD : ∀ e ∈ D, s.live e = true) :
    wp (alone Op.act t) (handleSetRequest buffer r) (KeptUnlessOk D s) s := by
  refine wp_reads_bind (reads_readRequestKey _) fun ⟨status, key⟩ => ?_
  cases status with
  | ok =>
    dsimp only
    split_ifs
    · exact wp_reply (wp_renewTtl_alone _)
    · refine wp_reads_bind (reads_readTagsUsingPayloadBuffer _ _) fun ⟨status, slices, buffer⟩ => ?_
      cases status with
      | ok => exact wp_reply (wp_storeEntry_alone _ _ _ _ _ hD)
      | _ => exact wp_kept all_pure (.refl s)
  | _ => exact wp_kept all_pure (.refl s)

/-- A key that is not bound is not unset. -/
theorem wp_lockAndUnsetCacheEntry_alone (hs : Kept D s₀ s) :
    wp (alone Op.act t) (lockAndUnsetCacheEntry key) (fun r s' => r = none → Kept D s₀ s') s := by
  have hvisit (p : SlotPos) {s : Process τ} (hs : Kept D s₀ s) :
      wp (alone Op.act t) (visitKey key (fun p entry => do
      writeSlot p none
      unlock (.slot p)
      pure entry) p) (fun r s' => r = none → Kept D s₀ s') s := by
    refine wp_spares_bind (D := D) (spares_op trivial) hs fun _ s₁ hs₁ => ?_
    refine wp_spares_bind (D := D) (spares_op trivial) hs₁ fun slot s₂ hs₂ => ?_
    have hend {s : Process τ} (hs : Kept D s₀ s) :
      wp (alone Op.act t) (unlock (.slot p) >>= fun _ => pure none)
        (fun (r : Option ℕ) s' => r = none → Kept D s₀ s') s :=
      wp_spares_bind (D := D) (spares_op trivial) hs fun _ s' hs' _ => hs'
    cases slot with
    | none => exact hend hs₂
    | some slot =>
      dsimp only
      split_ifs
      · refine wp_spares_bind (D := D) (spares_op trivial) hs₂ fun _ s₃ hs₃ => ?_
        refine wp_spares_bind (D := D) (spares_op trivial) hs₃ fun entry s₄ hs₄ => ?_
        split_ifs
        · refine (wp_bind _ _).mpr ?_
          exact wp_any_bind fun _ _ => wp_any_bind fun _ _ => nofun
        · exact wp_spares_bind (D := D) (spares_op trivial) hs₄ fun _ s₅ hs₅ => hend hs₅
      · exact hend hs₂
  have hprobe (map : Fin NUM_CACHE_ENTRY_MAPS) (n : ℕ) (pos : Fin CACHE_ENTRY_MAP_SIZE)
    {s : Process τ}
      (hs : Kept D s₀ s) : wp (alone Op.act t) (probe (visitKey key fun p entry => do
        writeSlot p none
        unlock (.slot p)
        pure entry) map n pos) (fun r s' => r = none → Kept D s₀ s') s := by
    induction n generalizing pos s with
    | zero => exact fun _ => hs
    | succ n ih =>
      refine (wp_bind _ _).mpr (Prog.wp_mono _ (fun r s₁ hs₁ => ?_) (hvisit (map, pos) hs))
      cases r with
      | none => exact ih _ (hs₁ rfl)
      | some e => exact nofun
  exact hprobe _ _ _ hs

theorem wp_handleDelRequest_alone (buffer : Payload) (r : Request) :
    wp (alone Op.act t) (handleDelRequest buffer r) (KeptUnlessOk D s) s := by
  refine wp_reads_bind (reads_readRequestKey _) fun ⟨status, key⟩ => ?_
  cases status with
  | ok =>
    refine wp_reply
      ((wp_bind _ _).mpr
      (Prog.wp_mono _ (fun e s₁ hs₁ => ?_) (wp_lockAndUnsetCacheEntry_alone (D := D) (.refl s))))
    cases e with
    | none => exact fun _ => hs₁ rfl
    | some e =>
      exact wp_any_bind fun _ _ => wp_any_bind fun _ _ => wp_any_bind fun _ _ => absurd rfl
  | _ => exact wp_kept all_pure (.refl s)

/-- A CLR fails before it begins to clear. -/
theorem wp_handleClrRequest_alone (buffer : Payload) (r : Request) :
    wp (alone Op.act t) (handleClrRequest buffer r) (KeptUnlessOk D s) s := by
  refine wp_reads_bind (reads_readTagsUsingPayloadBuffer _ _) fun ⟨status, slices, buffer⟩ => ?_
  cases status with
  | ok =>
    dsimp only
    split_ifs
    · exact wp_any_bind fun _ _ => absurd rfl
    · exact wp_any_bind fun _ _ => wp_any_bind fun _ _ => absurd rfl
    · exact wp_any_bind fun _ _ => absurd rfl
    · exact wp_any_bind fun _ _ => absurd rfl
    · exact wp_any_bind fun _ _ => absurd rfl
    · exact wp_kept all_pure (.refl s)
  | _ => exact wp_kept all_pure (.refl s)

/-- A LST only reads. -/
theorem spares_handleLstRequest (buffer : Payload) (r : Request) :
    All (Op.Spares D) (handleLstRequest buffer r) := by
  refine .bind ((reads_readTagsUsingPayloadBuffer _ _).mono fun _ => Op.IsRead.spares)
    fun ⟨status, slices, buffer⟩ => ?_
  have hlist {keys : Program (List KeyElem)} (hk : All (Op.Spares D) keys) (data : ListData) :
      All (Op.Spares D) (listKeyList keys data) :=
    hk.bind fun list => (spares_releaseKeyList list).bind fun _ => all_pure
  cases status with
  | ok =>
    dsimp only
    split_ifs
    · exact .bind (spares_walkAllEntries_look listAllKeysCallback_keep _) fun _ => all_pure
    · exact .bind (spares_walkAllTags _ _) fun _ => all_pure
    · exact .bind (spares_walkAllEntries_look (listNonMatchingCallback_keep slices) _) fun _ =>
        all_pure
    · exact .bind (hlist (spares_getKeysMatchingAllTags _) _) fun _ => all_pure
    · exact .bind (hlist (spares_getKeysMatchingAnyTag _) _) fun _ => all_pure
    · exact all_pure
  | _ => exact all_pure

/-- So does an NFO. -/
theorem spares_handleNfoRequest (buffer : Payload) (r : Request) :
    All (Op.Spares D) (handleNfoRequest buffer r) := by
  unfold handleNfoRequest
  dsimp only
  split_ifs
  · refine .bind ((reads_readRequestKey _).mono fun _ => Op.IsRead.spares) fun ⟨status, key⟩ => ?_
    cases status with
    | ok =>
      refine .bind (spares_lockAndGetCacheEntry key) fun e => ?_
      cases e with
      | none => exact all_pure
      | some e =>
        exact .bind (spares_op trivial) fun _ => .bind (spares_op trivial) fun _ => all_pure
    | _ => exact all_pure
  · exact .bind (spares_op trivial) fun _ => all_pure

/-- If a request fails, all is as before but for the entries that were not live. -/
theorem wp_handleRequest_alone (c : Call) (hD : ∀ e ∈ D, s.live e = true) :
    wp (alone Op.act t) (handleRequest c) (KeptUnlessOk D s) s := by
  unfold handleRequest
  dsimp only
  split_ifs
  · exact wp_kept all_pure (.refl s)
  · exact wp_handleGetRequest_alone _ _
  · exact wp_handleSetRequest_alone _ _ hD
  · exact wp_handleDelRequest_alone _ _
  · exact wp_handleClrRequest_alone _ _
  · exact wp_kept (spares_handleLstRequest _ _) (.refl s)
  · exact wp_kept (spares_handleNfoRequest _ _) (.refl s)
  · exact wp_kept all_pure (.refl s)

/-! ### Runs -/

/-- Nothing that a client can ask for has changed, no block is lost or gained, and nobody has a
guard. -/
structure Unchanged (s s' : Process τ) : Prop where
  /-- The slots. -/
  slots : s'.slots = s.slots
  /-- The entries in them. -/
  entries : ∀ p m, s.slots p = some m → SameEntry (s.entries m.entry) (s'.entries m.entry)
  /-- The tags of the nodes. -/
  tag : s'.tag = s.tag
  /-- The tree. -/
  child : s'.child = s.child
  /-- The key lists. -/
  keys : s'.keys = s.keys
  /-- The live blocks. -/
  live : s'.live = s.live
  /-- The guards. -/
  guards : ∀ x, s'.holder x = none

variable {start : ℕ → Bool} {l₀ l : List (τ × Event)} {c c' : Workers τ}

/-- Which blocks are in use depends on the slots and the tag index. -/
theorem Place.Has.congr {π : Place} {b : ℕ} (hslots : s'.slots = s.slots)
    (hchild : s'.child = s.child) (hkeys : s'.keys = s.keys) (h : π.Has start s b) :
    π.Has start s' b := by
  cases h with
  | start hb hroot => exact .start hb hroot
  | slot hm => exact .slot (hslots ▸ hm)
  | node hn hroot => exact .node (hchild ▸ hn) hroot
  | elem hn hi => exact .elem (hchild ▸ hn) (hkeys ▸ hi)

/-- Between requests the live blocks follow from the slots and the tag index. -/
theorem live_congr (h : Run Step (Workers.init start) l₀ c)
    (h' : Run Step (Workers.init start) l c') (hidle : ∀ u, c.loc u = none)
    (hidle' : ∀ u, c'.loc u = none) (hslots : c'.shared.slots = c.shared.slots)
    (hchild : c'.shared.child = c.shared.child) (hkeys : c'.shared.keys = c.shared.keys) :
    c'.shared.live = c.shared.live := by
  funext b
  rw [Bool.eq_iff_iff, live_iff_place h' hidle', live_iff_place h hidle]
  constructor
  · rintro ⟨π, hπ⟩
    exact ⟨π, hπ.congr hslots.symm hchild.symm hkeys.symm⟩
  · rintro ⟨π, hπ⟩
    exact ⟨π, hπ.congr hslots hchild hkeys⟩

/-- A request that is handled while the other workers are between two requests, and that fails,
changes nothing. -/
theorem failed_unchanged {call : Call} {reply : Reply} (h₀ : Run Step (Workers.init start) l₀ c)
    (hidle : ∀ u, c.loc u = none)
    (h : Run Step c ((t, .call call) :: (l ++ [(t, .returned reply)])) c')
    (hl : ∀ x ∈ l, x.1 = t ∧ ∀ i, x.2 ≠ .call i) (hfail : reply.status ≠ .ok) :
    Unchanged c.shared c'.shared := by
  have hlive : ∀ e ∈ {e | c.shared.live e = true}, c.shared.live e = true := fun e he => he
  have hkept : Kept {e | c.shared.live e = true} c.shared c'.shared ∧ ∀ u, c'.loc u = none := by
    cases h with
    | @cons _ c₁ _ _ _ hs hrun =>
      obtain ⟨-, hs₁, hq⟩ := Prog.Serve.call_iff.mp hs.own
      have hwp := wp_handleRequest_alone (t := t) call hlive
      rw [← hs₁] at hwp
      obtain ⟨hQ, hnone, hothers⟩ := alone_run hrun hl hq hwp
      rw [hs₁] at hQ
      refine ⟨hQ hfail, fun u => ?_⟩
      by_cases hu : u = t
      · rw [hu]
        exact hnone
      · exact (hothers u hu).trans ((hs.others u hu).trans (hidle u))
  obtain ⟨hk, hidle'⟩ := hkept
  have h' := h₀.append h
  refine ⟨hk.slots, fun p m hm => hk.entries _ ?_, hk.tag, hk.child, hk.keys, ?_, unheld h' hidle'⟩
  · exact (live_iff_place h₀ hidle _).mpr ⟨.slot p, .slot hm⟩
  · exact live_congr h₀ h' hidle hidle' hk.slots hk.child hk.keys

/-- A SET of a key that is stored, for which a block is reserved and of whose value only the first
byte comes. -/
theorem failed_unchanged_stored :
    ∃ (l₀ mid : List (Unit × Event)) (c c' : Workers Unit) (reply : Reply),
    Run Step (Workers.init fun _ => false) l₀ c ∧
    c.shared.slots (0, 0) = some ⟨getKeyHash [0, 0, 110], 1⟩ ∧
      Run Step c (((), .call setValueCall) :: (mid ++ [((), .returned reply)])) c' ∧
      ((), .did (.bucket MIN_BUCKET_SIZE) (some 2)) ∈ mid ∧ reply.status = .connectionClosed ∧
      Unchanged c.shared c'.shared := by
  obtain ⟨l₀, c, hrun₀, hl₀, hloc, hs⟩ := gets_stored
  obtain ⟨l, c', hrun, hl, mid, rfl, hmid, hmem⟩ := gets_closed hs
  rw [← hloc] at hrun
  have hidle (u : Unit) : c.loc u = none := by rw [hloc]
  exact ⟨l₀, mid, c, c', _, hl₀.run hrun₀, hs.slot, hl.run hrun, hmem, rfl,
    failed_unchanged (hl₀.run hrun₀) hidle (hl.run hrun) (fun x hx => ⟨rfl, hmid x hx⟩) (by decide)⟩

end Guarded

end Cik

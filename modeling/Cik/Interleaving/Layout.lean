import Cik.Interleaving.Blocks
import Cik.Library.Completion
import Mathlib.Data.Set.Finite.Basic

/-!
# What the process represents

The shared memory of the workers beside the store of `Cik.Source.Controller`, on which
the handlers work one at a time. `Rep hand s st` says that `s` represents `st`: every live
block is used for one thing (`Use`), the slots hold the entries of the maps, and the nodes
of the tag tree hold the key lists of the index, at the same places of a tree of the same
shape; the blocks `hand` are none of these, but the worker's own.

A worker that handles a request while the others do nothing is given what the request
needs by its surroundings (`Op.Supplied`): the client sends what it sends, the clock stands
still, and there is memory. `Ends` says that a program comes to its end then. Here are its
rules for the operations, and what the operations do to `Rep`.
-/

namespace Cik

namespace Guarded

open SearchTree

variable {τ : Type*} {α β : Type}

/-! ### One worker alone -/

/-- What the surroundings of a request answer. -/
def Op.Supplied (env : Env) : (o : Op) → Client → o.Answer → Client → Prop
  | .bucket _, client, r, client' => r.isSome ∧ client' = client
  | .time, client, r, client' => r = env.now ∧ client' = client
  | .read nmemb, client, r, client' => readRequestPayload client nmemb = (r.1, r.2, client')
  | .info, client, r, client' => r = env.info ∧ client' = client
  | _, client, _, client' => client' = client

/-- What an operation does in these surroundings. -/
def Op.actIn (env : Env) (t : τ) (x : Process τ × Client) (o : Op) (r : o.Answer)
    (x' : Process τ × Client) : Prop :=
  o.effect t x.1 r x'.1 ∧ o.Supplied env x.2 r x'.2

/-- The program comes to its end, and `Q` holds then. -/
abbrev Ends (env : Env) (t : τ) (Q : α → Process τ × Client → Prop) (x : Process τ × Client)
    (p : Program α) : Prop :=
  Completes (Op.actIn env t) Q x p

variable {env : Env} {t : τ} {s s' : Process τ} {client : Client}

theorem ends_op {o : Op} {Q : o.Answer → Process τ × Client → Prop}
    (can : ∃ r s' client', o.effect t s r s' ∧ o.Supplied env client r client')
    (hQ : ∀ r s' client', o.effect t s r s' → o.Supplied env client r client' → Q r (s', client')) :
    Ends env t Q (s, client) (.op o .pure) := by
  obtain ⟨r, s', client', ha⟩ := can
  exact .op ⟨r, (s', client'), ha⟩ fun r x ha => .pure (hQ r x.1 x.2 ha.1 ha.2)

section Operations

theorem ends_lock {x : Guard} {Q : Unit → Process τ × Client → Prop} (hx : s.holder x = none)
    (hQ : Q () (s.setHolder x (some t), client)) : Ends env t Q (s, client) (lock x) := by
  refine ends_op (o := .lock x) ⟨(), _, client, ⟨hx, rfl⟩, rfl⟩ ?_
  rintro r s' client' ⟨-, rfl⟩ rfl
  exact hQ

theorem ends_tryLock {x : Guard} {Q : Bool → Process τ × Client → Prop} (hx : s.holder x = none)
    (hQ : Q true (s.setHolder x (some t), client)) : Ends env t Q (s, client) (tryLock x) := by
  have hsome : (s.holder x).isNone = true := by rw [hx, Option.isNone_none]
  refine ends_op (o := .tryLock x) ⟨true, _, client, ⟨hsome.symm, rfl⟩, rfl⟩ ?_
  rintro r s' client' ⟨rfl, rfl⟩ rfl
  rw [hsome, if_pos rfl]
  exact hQ

theorem ends_unlock {x : Guard} {Q : Unit → Process τ × Client → Prop}
    (hQ : Q () (s.setHolder x none, client)) :
    Ends env t Q (s, client) (unlock x) := by
  refine ends_op (o := .unlock x) ⟨(), _, client, rfl, rfl⟩ ?_
  rintro r s' client' rfl rfl
  exact hQ

theorem ends_readSlot {p : SlotPos} {Q : Option MapSlot → Process τ × Client → Prop}
    (hQ : Q (s.slots p) (s, client)) :
    Ends env t Q (s, client) (readSlot p) := by
  refine ends_op (o := .readSlot p) ⟨_, s, client, ⟨rfl, rfl⟩, rfl⟩ ?_
  rintro r s' client' ⟨rfl, rfl⟩ rfl
  exact hQ

theorem ends_returnEntry {p : SlotPos} {e : ℕ} {key : CacheKey}
    {Q : Option ℕ → Process τ × Client → Prop}
    (hQ : Q ((s.slots p).map MapSlot.entry) (s, client)) :
    Ends env t Q (s, client) (returnEntry p e key) := by
  refine ends_op (o := .returnEntry p e key) ⟨_, s, client, ⟨rfl, rfl⟩, rfl⟩ ?_
  rintro r s' client' ⟨rfl, rfl⟩ rfl
  exact hQ

theorem ends_writeSlot {p : SlotPos} {v : Option MapSlot} {Q : Unit → Process τ × Client → Prop}
    (hQ : Q () ({ s with slots := Function.update s.slots p v }, client)) :
    Ends env t Q (s, client) (writeSlot p v) := by
  refine ends_op (o := .writeSlot p v) ⟨(), _, client, rfl, rfl⟩ ?_
  rintro r s' client' rfl rfl
  exact hQ

theorem ends_readEntry {e : ℕ} {Q : CacheEntry → Process τ × Client → Prop}
    (hQ : Q (s.entries e) (s, client)) :
    Ends env t Q (s, client) (readEntry e) := by
  refine ends_op (o := .readEntry e) ⟨_, s, client, ⟨rfl, rfl⟩, rfl⟩ ?_
  rintro r s' client' ⟨rfl, rfl⟩ rfl
  exact hQ

theorem ends_writeEntry {e : ℕ} {v : CacheEntry} {Q : Unit → Process τ × Client → Prop}
    (hQ : Q () ({ s with entries := Function.update s.entries e v }, client)) :
    Ends env t Q (s, client) (writeEntry e v) := by
  refine ends_op (o := .writeEntry e v) ⟨(), _, client, rfl, rfl⟩ ?_
  rintro r s' client' rfl rfl
  exact hQ

theorem ends_initEntry {e : ℕ} {Q : Unit → Process τ × Client → Prop}
    (hQ : ∀ now, Q () ({ s with
      entries := Function.update s.entries e (cacheEntryInit now)
      entryGuard := Function.update s.entryGuard e none }, client)) :
    Ends env t Q (s, client) (initEntry e) := by
  refine ends_op (o := .initEntry e) ⟨(), _, client, ⟨0, rfl⟩, rfl⟩ ?_
  rintro r s' client' ⟨now, rfl⟩ rfl
  exact hQ now

theorem ends_fill {e bytes : ℕ} {size : UInt32} {Q : Unit → Process τ × Client → Prop}
    (hfit : (Op.fill e size bytes).overruns = false) (hQ : Q () (s, client)) :
    Ends env t Q (s, client) (fill e size bytes) := by
  refine ends_op (o := .fill e size bytes) ⟨(), s, client, Op.effect_of_act rfl hfit, rfl⟩ ?_
  rintro r s' client' ha rfl
  obtain rfl := Op.act_of_effect ha hfit
  exact hQ

theorem ends_readTag {n : ℕ} {Q : CacheTag → Process τ × Client → Prop}
    (hQ : Q (s.tag n) (s, client)) :
    Ends env t Q (s, client) (readTag n) := by
  refine ends_op (o := .readTag n) ⟨_, s, client, ⟨rfl, rfl⟩, rfl⟩ ?_
  rintro r s' client' ⟨rfl, rfl⟩ rfl
  exact hQ

theorem ends_readChild {n : ℕ} {side : Side} {Q : Option ℕ → Process τ × Client → Prop}
    (hQ : Q (s.child n side) (s, client)) : Ends env t Q (s, client) (readChild n side) := by
  refine ends_op (o := .readChild n side) ⟨_, s, client, ⟨rfl, rfl⟩, rfl⟩ ?_
  rintro r s' client' ⟨rfl, rfl⟩ rfl
  exact hQ

theorem ends_initNode {n : ℕ} {tag : CacheTag} {Q : Unit → Process τ × Client → Prop}
    (hQ : Q () ({ s with
      tag := Function.update s.tag n tag
      child := Function.update s.child n fun _ => none
      keys := Function.update s.keys n []
      keysLock := Function.update s.keysLock n none }, client)) :
    Ends env t Q (s, client) (initNode n tag) := by
  refine ends_op (o := .initNode n tag) ⟨(), _, client, rfl, rfl⟩ ?_
  rintro r s' client' rfl rfl
  exact hQ

theorem ends_exchangeChild {n c : ℕ} {side : Side} {Q : Bool → Process τ × Client → Prop}
    (hnone : s.child n side = none)
    (hQ : Q true
      ({ s with child := Function.update s.child n (Function.update (s.child n) side (some c)) },
        client)) :
    Ends env t Q (s, client) (exchangeChild n side c) := by
  have hsome : (s.child n side).isNone = true := by rw [hnone, Option.isNone_none]
  refine ends_op (o := .exchangeChild n side c) ⟨true, _, client, ⟨hsome.symm, rfl⟩, rfl⟩ ?_
  rintro r s' client' ⟨rfl, rfl⟩ rfl
  rw [hsome, if_pos rfl]
  exact hQ

theorem ends_readKeys {n : ℕ} {Q : List KeyElem → Process τ × Client → Prop}
    (hQ : Q (s.keys n) (s, client)) :
    Ends env t Q (s, client) (readKeys n) := by
  refine ends_op (o := .readKeys n) ⟨_, s, client, ⟨rfl, rfl⟩, rfl⟩ ?_
  rintro r s' client' ⟨rfl, rfl⟩ rfl
  exact hQ

theorem ends_writeKeys {n : ℕ} {l : List KeyElem} {Q : Unit → Process τ × Client → Prop}
    (hQ : Q () ({ s with keys := Function.update s.keys n l }, client)) :
    Ends env t Q (s, client) (writeKeys n l) := by
  refine ends_op (o := .writeKeys n l) ⟨(), _, client, rfl, rfl⟩ ?_
  rintro r s' client' rfl rfl
  exact hQ

/-- There is memory as long as not every block is live. -/
theorem ends_bucket {p : ℕ} {Q : Option ℕ → Process τ × Client → Prop}
    (hfin : {b | s.live b = true}.Finite)
    (hQ : ∀ b, s.live b = false → b ≠ root → Q (some b) ({ s with
      live := Function.update s.live b true
      partition := Function.update s.partition b p }, client)) :
    Ends env t Q (s, client) (bucket p) := by
  obtain ⟨b, hb⟩ := (hfin.union (Set.finite_singleton root)).exists_notMem
  simp only [Set.mem_union, Set.mem_ofPred_eq, Set.mem_singleton_iff, not_or,
    Bool.not_eq_true] at hb
  refine ends_op (o := .bucket p) ⟨some b, _, client, ⟨hb.1, hb.2, rfl⟩, rfl, rfl⟩ ?_
  rintro r s' client' ha ⟨hr, rfl⟩
  cases r with
  | none => cases hr
  | some b =>
    obtain ⟨hlive, hroot, rfl⟩ := ha
    exact hQ b hlive hroot

theorem ends_release {b : ℕ} {Q : Unit → Process τ × Client → Prop}
    (hmark : s.mark (s.partition b) = none)
    (hQ : Q () ({ s with live := Function.update s.live b false }, client)) :
    Ends env t Q (s, client) (release b) := by
  refine ends_op (o := .release b) ⟨(), _, client, ⟨hmark, rfl⟩, rfl⟩ ?_
  rintro r s' client' ⟨-, rfl⟩ rfl
  exact hQ

theorem ends_time {Q : Time → Process τ × Client → Prop} (hQ : Q env.now (s, client)) :
    Ends env t Q (s, client) time := by
  refine ends_op (o := .time) ⟨env.now, s, client, rfl, rfl, rfl⟩ ?_
  rintro r s' client' rfl ⟨rfl, rfl⟩
  exact hQ

theorem ends_info {Q : ServerInfo → Process τ × Client → Prop} (hQ : Q env.info (s, client)) :
    Ends env t Q (s, client) info := by
  refine ends_op (o := .info) ⟨env.info, s, client, rfl, rfl, rfl⟩ ?_
  rintro r s' client' rfl ⟨rfl, rfl⟩
  exact hQ

/-- What a read from a client comes to. -/
theorem readRequestPayload_status (client : Client) (n : ℕ) :
    (readRequestPayload client n).1 = .ok ∧ (readRequestPayload client n).2.1.length = n ∨
      (readRequestPayload client n).1 = .connectionClosed ∨
      (readRequestPayload client n).1 = .networkError := by
  by_cases hn : n ≤ client.input.length
  · obtain ⟨reads, h⟩ := readRequestPayload_of_le hn
    rw [h]
    exact Or.inl ⟨rfl, by simpa using hn⟩
  · obtain ⟨reads, h⟩ := readRequestPayload_of_lt (Nat.lt_of_not_le hn)
    rw [h, Client.endStatus]
    cases client.isClosed
    · exact Or.inr (Or.inr rfl)
    · exact Or.inr (Or.inl rfl)

theorem ends_read {n : ℕ} {Q : StatusCode × List UInt8 → Process τ × Client → Prop}
    (hQ : Q ((readRequestPayload client n).1, (readRequestPayload client n).2.1)
      (s, (readRequestPayload client n).2.2)) :
    Ends env t Q (s, client) (read n) := by
  refine ends_op (o := .read n)
    ⟨((readRequestPayload client n).1, (readRequestPayload client n).2.1), s, _,
    ⟨readRequestPayload_status client n, rfl⟩, rfl⟩ ?_
  rintro ⟨status, bs⟩ s' client' ⟨-, rfl⟩ hr
  have hr : readRequestPayload client n = (status, bs, client') := hr
  rw [hr] at hQ
  exact hQ

end Operations

/-! ### What represents a store -/

/-- What a live block is used for. -/
inductive Use where
  /-- It was reserved at start-up. -/
  | start
  /-- It is the entry in a slot. -/
  | slot (p : SlotPos)
  /-- It is a node of the tag tree. -/
  | node
  /-- It is an element of the key list of a node. -/
  | elem (n : ℕ)
  /-- It is in the worker's hands. -/
  | hand

/-- The live blocks are those in use. -/
structure RepBlocks (use : ℕ → Option Use) (hand : Multiset ℕ) (live : ℕ → Bool) : Prop where
  /-- A block is live when it is in use. -/
  isLive : ∀ b, live b = (use b).isSome
  /-- Not every block is. -/
  finite : {b | live b = true}.Finite
  /-- The root is not a block. -/
  static : use root = none
  /-- The worker has no block twice. -/
  nodup : hand.Nodup
  /-- The worker's blocks. -/
  mem : ∀ b, b ∈ hand ↔ use b = some .hand

/-- The slots hold the entries of the maps. -/
structure RepMaps (use : ℕ → Option Use) (slots : SlotPos → Option MapSlot)
    (entries : ℕ → CacheEntry) (maps : Fin NUM_CACHE_ENTRY_MAPS → CacheEntryHashMap) : Prop where
  /-- An entry is in one slot. -/
  used : ∀ p m, slots p = some m → use m.entry = some (.slot p)
  /-- The hash is that of the entry's key. -/
  hash : ∀ p m, slots p = some m → m.hash = getKeyHash (entries m.entry).key
  /-- The slots of the maps. -/
  slot : ∀ p, (maps p.1).slots p.2 = (slots p).map fun m => Slot.ofEntry (entries m.entry)

/-- The keys of a key list. -/
def keysOf (l : List KeyElem) : List CacheKey := l.map KeyElem.key

@[simp] theorem keysOf_nil : keysOf [] = [] := rfl

@[simp] theorem keysOf_cons (elem : KeyElem) (l : List KeyElem) :
    keysOf (elem :: l) = elem.key :: keysOf l := rfl

/-- The nodes hold the key lists of the index. -/
structure RepIndex (use : ℕ → Option Use) (tree : SearchTree CacheTag ℕ) (tag : ℕ → CacheTag)
    (child : ℕ → Side → Option ℕ) (keys : ℕ → List KeyElem) (tags : TagTree) : Prop where
  /-- The tree of the nodes. -/
  represents : Represents tag child (some root) tree
  /-- The nodes are blocks, but for the root. -/
  node : ∀ n ∈ tree.toList.map Prod.snd, n ≠ root → use n = some .node
  /-- So are the elements of the lists. -/
  elem : ∀ n ∈ tree.toList.map Prod.snd, ∀ b ∈ bases (keys n), use b = some (.elem n)
  /-- No element is in a list twice. -/
  nodup : ∀ n ∈ tree.toList.map Prod.snd, (bases (keys n)).Nodup
  /-- The tree is of the same shape as that of the index, with the same lists. -/
  same : (tree.map fun n => keysOf (keys n)) = tags.nodes.map TagNode.keys
  /-- The keys are no longer than a request can make them. -/
  short : ∀ tag key, tags.HasKey tag key → key.length ≤ 255

/-- The process represents the store; `hand` are blocks of the worker. -/
def Rep (hand : Multiset ℕ) (s : Process τ) (st : Store) : Prop :=
  ∃ use tree, RepBlocks use hand s.live ∧ RepMaps use s.slots s.entries st.maps ∧
    RepIndex use tree s.tag s.child s.keys st.tags

section Parts

variable {use : ℕ → Option Use} {hand : Multiset ℕ} {live : ℕ → Bool} {slots : SlotPos →
  Option MapSlot} {entries : ℕ → CacheEntry} {maps : Fin NUM_CACHE_ENTRY_MAPS → CacheEntryHashMap}
    {tree : SearchTree CacheTag ℕ}
  {tag : ℕ → CacheTag} {child : ℕ → Side → Option ℕ} {keys : ℕ → List KeyElem}
    {tags : TagTree} {b e n : ℕ}
  {o : Option Use} {u : Use} {p : SlotPos} {m : MapSlot} {v : CacheEntry}

namespace RepBlocks

theorem use_of_mem (h : RepBlocks use hand live) (hb : b ∈ hand) : use b = some .hand :=
  (h.mem b).mp hb

/-- One block is used in another way. -/
theorem update (h : RepBlocks use hand live) {hand' : Multiset ℕ} (hroot : b ≠ root)
    (hnodup : hand'.Nodup) (hmem : ∀ c, c ∈ hand' ↔ Function.update use b o c = some .hand) :
    RepBlocks (Function.update use b o) hand' (Function.update live b o.isSome) where
  isLive := fun c => by
    by_cases hc : c = b
    · rw [hc, Function.update_self, Function.update_self]
    · rw [Function.update_of_ne hc, Function.update_of_ne hc, h.isLive]
  finite := by
    refine (h.finite.union (Set.finite_singleton b)).subset fun c hc => ?_
    by_cases hcb : c = b
    · exact Or.inr hcb
    · refine Or.inl ?_
      change Function.update live b o.isSome c = true at hc
      rwa [Function.update_of_ne hcb] at hc
  static := by rw [Function.update_of_ne hroot.symm, h.static]
  nodup := hnodup
  mem := hmem

/-- A block is reserved. -/
theorem reserve (h : RepBlocks use hand live) (hb : live b = false) (hroot : b ≠ root) :
    RepBlocks (Function.update use b (some .hand)) (b ::ₘ hand) (Function.update live b true) := by
  have hnone : use b = none := by
    have hl := h.isLive b
    rw [hb] at hl
    exact Option.not_isSome_iff_eq_none.mp (by simp [← hl])
  have hnot : b ∉ hand := fun hm => by cases hnone.symm.trans (h.use_of_mem hm)
  refine h.update hroot (Multiset.nodup_cons.mpr ⟨hnot, h.nodup⟩) fun c => ?_
  rw [Multiset.mem_cons]
  by_cases hc : c = b
  · simp [hc]
  · rw [Function.update_of_ne hc, h.mem]
    simp [hc]

/-- A block of the worker is used in another way, or released. -/
theorem give (h : RepBlocks use (b ::ₘ hand) live) (ho : o ≠ some .hand) :
    RepBlocks (Function.update use b o) hand (Function.update live b o.isSome) := by
  obtain ⟨hnot, hnodup⟩ := Multiset.nodup_cons.mp h.nodup
  have hroot : b ≠ root := by
    rintro rfl
    cases h.static.symm.trans (h.use_of_mem (Multiset.mem_cons_self _ _))
  refine h.update hroot hnodup fun c => ?_
  by_cases hc : c = b
  · rw [hc, Function.update_self]
    exact iff_of_false hnot ho
  · rw [Function.update_of_ne hc, ← h.mem, Multiset.mem_cons]
    exact (or_iff_right hc).symm

/-- The worker takes a block that was used in another way. -/
theorem take (h : RepBlocks use hand live) (hu : use b = some u) (hne : u ≠ .hand) :
    RepBlocks (Function.update use b (some .hand)) (b ::ₘ hand) live := by
  have hnot : b ∉ hand := fun hm => hne (Option.some.inj (hu.symm.trans (h.use_of_mem hm)))
  have hroot : b ≠ root := by
    rintro rfl
    cases h.static.symm.trans hu
  have hlive : Function.update live b (some Use.hand).isSome = live := by
    refine Function.update_eq_self_iff.mpr ?_
    rw [h.isLive, hu]
    rfl
  rw [← hlive]
  refine h.update hroot (Multiset.nodup_cons.mpr ⟨hnot, h.nodup⟩) fun c => ?_
  rw [Multiset.mem_cons]
  by_cases hc : c = b
  · simp [hc]
  · rw [Function.update_of_ne hc, h.mem]
    simp [hc]

end RepBlocks

namespace RepMaps

/-- Blocks that no slot has are used in another way. -/
theorem pass {use' : ℕ → Option Use} (h : RepMaps use slots entries maps)
    (hu : ∀ b p, use b = some (.slot p) → use' b = some (.slot p)) :
    RepMaps use' slots entries maps :=
  ⟨fun p m hm => hu _ _ (h.used p m hm), h.hash, h.slot⟩

theorem update_use (h : RepMaps use slots entries maps) (hb : ∀ p, use b ≠ some (.slot p)) :
    RepMaps (Function.update use b o) slots entries maps := by
  refine h.pass fun c p hc => ?_
  have hne : c ≠ b := by
    rintro rfl
    exact hb p hc
  rw [Function.update_of_ne hne, hc]

/-- An entry is in one slot. -/
theorem eq_of_entry {p' : SlotPos} {m' : MapSlot} (h : RepMaps use slots entries maps)
    (hm : slots p = some m) (hm' : slots p' = some m') (he : m.entry = m'.entry) : p = p' := by
  have hu := h.used p m hm
  rw [he, h.used p' m' hm'] at hu
  simpa using hu.symm

/-- A slot is cleared; its entry may be used in another way. -/
theorem clear (h : RepMaps use slots entries maps) (hm : slots p = some m) :
    RepMaps (Function.update use m.entry o) (Function.update slots p none) entries
      (Function.update maps p.1 ((maps p.1).clear p.2)) where
  used := fun q m' hm' => by
    by_cases hq : q = p
    · rw [hq, Function.update_self] at hm'
      cases hm'
    · rw [Function.update_of_ne hq] at hm'
      have hne : m'.entry ≠ m.entry := fun he => hq (h.eq_of_entry hm' hm he)
      rw [Function.update_of_ne hne, h.used q m' hm']
  hash := fun q m' hm' => by
    by_cases hq : q = p
    · rw [hq, Function.update_self] at hm'
      cases hm'
    · rw [Function.update_of_ne hq] at hm'
      exact h.hash q m' hm'
  slot := fun q => by
    obtain ⟨i, pos⟩ := p
    obtain ⟨j, pos'⟩ := q
    have hslot := h.slot (j, pos')
    dsimp only at hslot ⊢
    by_cases hj : j = i
    · subst hj
      rw [Function.update_self, CacheEntryHashMap.clear_slots]
      by_cases hpos : pos' = pos
      · subst hpos
        rw [Function.update_self, Function.update_self, Option.map_none]
      · rw [Function.update_of_ne hpos, Function.update_of_ne (by simp [hpos]), hslot]
    · rw [Function.update_of_ne hj, Function.update_of_ne (by simp [hj]), hslot]

/-- An entry that no slot has is put into a free one. -/
theorem fill (h : RepMaps use slots entries maps) (hfree : slots p = none)
    (he : ∀ p, use e ≠ some (.slot p)) :
    RepMaps (Function.update use e (some (.slot p)))
      (Function.update slots p (some ⟨getKeyHash (entries e).key, e⟩))
      entries (Function.update maps p.1 ((maps p.1).put p.2 (entries e))) where
  used := fun q m' hm' => by
    by_cases hq : q = p
    · rw [hq, Function.update_self, Option.some.injEq] at hm'
      rw [← hm', hq, Function.update_self]
    · rw [Function.update_of_ne hq] at hm'
      have hne : m'.entry ≠ e := by
        rintro rfl
        exact he q (h.used q m' hm')
      rw [Function.update_of_ne hne, h.used q m' hm']
  hash := fun q m' hm' => by
    by_cases hq : q = p
    · rw [hq, Function.update_self, Option.some.injEq] at hm'
      rw [← hm']
    · rw [Function.update_of_ne hq] at hm'
      exact h.hash q m' hm'
  slot := fun q => by
    obtain ⟨i, pos⟩ := p
    obtain ⟨j, pos'⟩ := q
    have hslot := h.slot (j, pos')
    dsimp only at hslot ⊢
    by_cases hj : j = i
    · subst hj
      rw [Function.update_self, CacheEntryHashMap.put_slots]
      by_cases hpos : pos' = pos
      · subst hpos
        rw [Function.update_self, Function.update_self, Option.map_some]
      · rw [Function.update_of_ne hpos, Function.update_of_ne (by simp [hpos]), hslot]
    · rw [Function.update_of_ne hj, Function.update_of_ne (by simp [hj]), hslot]

/-- An entry in a slot is written, with the same key. -/
theorem write (h : RepMaps use slots entries maps) (hm : slots p = some m)
    (hk : v.key = (entries m.entry).key) :
    RepMaps use slots (Function.update entries m.entry v)
      (Function.update maps p.1 ((maps p.1).put p.2 v)) where
  used := h.used
  hash := fun q m' hm' => by
    by_cases he : m'.entry = m.entry
    · rw [he, Function.update_self, hk, ← he, h.hash q m' hm']
    · rw [Function.update_of_ne he, h.hash q m' hm']
  slot := fun q => by
    have hother {q : SlotPos} (hq : q ≠ p) :
        (slots q).map (fun m' => Slot.ofEntry (Function.update entries m.entry v m'.entry)) =
          (slots q).map fun m' => Slot.ofEntry (entries m'.entry) := by
      refine Option.map_congr fun m' hm' => ?_
      have hne : m'.entry ≠ m.entry := fun he => hq (h.eq_of_entry hm' hm he)
      rw [Function.update_of_ne hne]
    obtain ⟨i, pos⟩ := p
    obtain ⟨j, pos'⟩ := q
    have hslot := h.slot (j, pos')
    dsimp only at hslot ⊢
    by_cases hj : j = i
    · subst hj
      rw [Function.update_self, CacheEntryHashMap.put_slots]
      by_cases hpos : pos' = pos
      · subst hpos
        rw [Function.update_self, hm, Option.map_some, Function.update_self]
      · rw [Function.update_of_ne hpos, hother (by simp [hpos]), hslot]
    · rw [Function.update_of_ne hj, hother (by simp [hj]), hslot]

/-- An entry that no slot has is written. -/
theorem write_other (h : RepMaps use slots entries maps) (he : ∀ p, use e ≠ some (.slot p)) :
    RepMaps use slots (Function.update entries e v) maps := by
  have hne (q : SlotPos) (m' : MapSlot) (hm' : slots q = some m') : m'.entry ≠ e := by
    rintro rfl
    exact he q (h.used q m' hm')
  refine ⟨h.used, fun q m' hm' => ?_, fun q => ?_⟩
  · rw [Function.update_of_ne (hne q m' hm'), h.hash q m' hm']
  · rw [h.slot q]
    refine Option.map_congr fun m' hm' => ?_
    rw [Function.update_of_ne (hne q m' hm')]

end RepMaps

namespace RepIndex

theorem ordered (h : RepIndex use tree tag child keys tags) : tree.Ordered compareTags := by
  have ht := (ordered_map TagNode.keys).mpr tags.ordered
  rw [← h.same] at ht
  exact (ordered_map _).mp ht

/-- A node of the tree. -/
theorem root_mem (h : RepIndex use tree tag child keys tags) : root ∈ tree.toList.map Prod.snd := by
  have hpath : root ∈ tree.path compareTags rootValue := h.represents.root_mem_path
  exact mem_values_of_mem_path hpath

/-- Blocks that the index does not use are used in another way. -/
theorem update_use (h : RepIndex use tree tag child keys tags) (hn : use b ≠ some .node)
    (he : ∀ n, use b ≠ some (.elem n)) :
    RepIndex (Function.update use b o) tree tag child keys tags := by
  have hne {c : ℕ} {w : Use} (hc : use c = some w) (hw : use b ≠ some w) :
      Function.update use b o c = some w := by
    have : c ≠ b := by
      rintro rfl
      exact hw hc
    rw [Function.update_of_ne this, hc]
  exact ⟨h.represents, fun n hnt hroot => hne (h.node n hnt hroot) hn,
    fun n hnt b hb => hne (h.elem n hnt b hb) (he n), h.nodup, h.same, h.short⟩

/-- A block that is not a node is filled in. -/
theorem init (h : RepIndex use tree tag child keys tags) (hroot : n ≠ root)
    (hn : use n ≠ some .node) (tg : CacheTag) (f : Side → Option ℕ) (l : List KeyElem) :
    RepIndex use tree (Function.update tag n tg) (Function.update child n f)
      (Function.update keys n l) tags := by
  have hne (m : ℕ) (hm : m ∈ tree.toList.map Prod.snd) : m ≠ n := by
    rintro rfl
    exact hn (h.node m hm hroot)
  refine ⟨h.represents.congr fun m hm => ?_, h.node, fun m hm => ?_, fun m hm => ?_, ?_, h.short⟩
  · rw [Function.update_of_ne (hne m hm), Function.update_of_ne (hne m hm)]
    exact ⟨rfl, rfl⟩
  · rw [Function.update_of_ne (hne m hm)]
    exact h.elem m hm
  · rw [Function.update_of_ne (hne m hm)]
    exact h.nodup m hm
  · rw [← h.same]
    refine map_congr fun m hm => ?_
    rw [Function.update_of_ne (hne m hm)]

end RepIndex

/-! ### A key list is replaced -/

section Relist

/-- What the blocks are used for when the list `l` of a node is replaced by `l'`. -/
def relistUse (use : ℕ → Option Use) (n : ℕ) (l l' : List KeyElem) (b : ℕ) : Option Use :=
  if b ∈ bases l' then some (.elem n) else if b ∈ bases l then some .hand else use b

variable {l' : List KeyElem} {hand' : Multiset ℕ}
  (hB : RepBlocks use hand live) (hI : RepIndex use tree tag child keys tags)
    (hn : n ∈ tree.toList.map Prod.snd)
  (hb : bases l' + hand' = bases (keys n) + hand)

include hB hI hn hb

theorem relistUse_eq {w : Use} (hu : use b = some w) (hw : w ≠ .hand) (hne : w ≠ .elem n) :
    relistUse use n (keys n) l' b = some w := by
  have hold : b ∉ bases (keys n) :=
    fun hm => hne (Option.some.inj (hu.symm.trans (hI.elem n hn b hm)))
  have hhand : b ∉ hand := fun hm => hw (Option.some.inj (hu.symm.trans (hB.use_of_mem hm)))
  have hnew : b ∉ bases l' := fun hm => by
    have : b ∈ bases (keys n) + hand := hb ▸ Multiset.mem_add.mpr (Or.inl hm)
    exact (Multiset.mem_add.mp this).elim hold hhand
  rw [relistUse, if_neg hnew, if_neg hold, hu]

theorem nodup_relist : (bases l' + hand').Nodup := by
  rw [hb, Multiset.nodup_add]
  refine ⟨hI.nodup n hn, hB.nodup, Multiset.disjoint_left.mpr ?_⟩
  intro b hold hhand
  cases (hI.elem n hn b hold).symm.trans (hB.use_of_mem hhand)

theorem RepBlocks.relist : RepBlocks (relistUse use n (keys n) l') hand' live := by
  obtain ⟨-, hnodup, hdisj⟩ := Multiset.nodup_add.mp (nodup_relist hB hI hn hb)
  have hmem (b : ℕ) : b ∈ bases l' ∨ b ∈ hand' ↔ b ∈ bases (keys n) ∨ b ∈ hand := by
    rw [← Multiset.mem_add, hb, Multiset.mem_add]
  refine ⟨fun b => ?_, hB.finite, ?_, hnodup, fun b => ?_⟩
  · rw [hB.isLive, relistUse]
    split_ifs with h' h
    · rcases (hmem b).mp (Or.inl h') with h | h
      · simp [hI.elem n hn b h]
      · simp [hB.use_of_mem h]
    · simp [hI.elem n hn b h]
    · rfl
  · have hnot : root ∉ bases l' ∧ root ∉ bases (keys n) := by
      rw [← not_or]
      intro h
      have : root ∈ bases (keys n) ∨ root ∈ hand :=
        h.elim (fun h => (hmem root).mp (Or.inl h)) Or.inl
      rcases this with h | h
      · cases hB.static.symm.trans (hI.elem n hn _ h)
      · cases hB.static.symm.trans (hB.use_of_mem h)
    rw [relistUse, if_neg hnot.1, if_neg hnot.2, hB.static]
  · rw [relistUse]
    split_ifs with h' h
    · exact iff_of_false (fun hh => Multiset.disjoint_left.mp hdisj h' hh) (by simp)
    · exact iff_of_true (((hmem b).mpr (Or.inl h)).resolve_left h') rfl
    · rw [← hB.mem]
      have := hmem b
      tauto

/-- The index with the node of a tag changed, where the keys of the new list are those of the
changed node. -/
theorem RepIndex.relist {tg : CacheTag} {f : TagNode → TagNode} {g : List CacheKey → List CacheKey}
    (hfind : tree.find compareTags tg = some n) (hf : ∀ node, (f node).keys = g node.keys)
    (hg : g (keysOf (keys n)) = keysOf l')
    (hshort : ∀ tag' key, (modifyNode tags tg f).HasKey tag' key → key.length ≤ 255) :
    RepIndex (relistUse use n (keys n) l') tree tag child (Function.update keys n l')
      (modifyNode tags tg f) where
  represents := hI.represents
  node := fun m hm hroot => relistUse_eq hB hI hn hb (hI.node m hm hroot) (by simp) (by simp)
  elem := fun m hm b hbm => by
    by_cases hmn : m = n
    · subst hmn
      rw [Function.update_self] at hbm
      rw [relistUse, if_pos hbm]
    · rw [Function.update_of_ne hmn] at hbm
      exact relistUse_eq hB hI hn hb (hI.elem m hm b hbm) (by simp) (by simpa using hmn)
  nodup := fun m hm => by
    by_cases hmn : m = n
    · subst hmn
      rw [Function.update_self]
      exact (Multiset.nodup_add.mp (nodup_relist hB hI hn hb)).1
    · rw [Function.update_of_ne hmn]
      exact hI.nodup m hm
  same := by
    have hkeys :
        (fun m => keysOf (Function.update keys n l' m)) = Function.update
        (fun m => keysOf (keys m)) n (keysOf l') :=
      funext fun m => Function.apply_update (fun _ => keysOf) keys n l' m
    have hfind' : (tags.nodes.map TagNode.keys).find compareTags tg = some (keysOf (keys n)) := by
      rw [← hI.same, find_map, hfind, Option.map_some]
    calc tree.map (fun m => keysOf (Function.update keys n l' m))
        = (tree.map fun m => keysOf (keys m)).update compareTags tg fun _ => keysOf l' := by
          rw [hkeys, hI.represents.map_update_eq hI.ordered hfind]
      _ = (tags.nodes.map TagNode.keys).update compareTags tg g := by
          rw [hI.same]
          exact update_eq_of_find hfind' hg.symm
      _ = (modifyNode tags tg f).nodes.map TagNode.keys := (map_update hf _).symm
  short := hshort

end Relist

/-! ### A node is linked -/

/-- A new node without children and keys is linked where the search for its tag ends. -/
theorem RepIndex.link (hI : RepIndex use tree tag child keys tags) {side : Side} {c : ℕ}
    {tg : CacheTag} (hn : n ∈ tree.path compareTags tg)
    (hside : compareTags tg (tag n) = side.ordering) (hnone : child n side = none)
    (hc : use c ≠ some .node) (hc' : ∀ n, use c ≠ some (.elem n)) (hroot : c ≠ root)
    (htag : tag c = tg) (hchild : ∀ side, child c side = none) (hkeys : keys c = [])
    (hfind : tree.find compareTags tg = none) :
    RepIndex (Function.update use c (some .node)) (tree.insertNew compareTags tg c) tag
      (Function.update child n (Function.update (child n) side (some c))) keys
        (Cik.getOrCreateNode tags tg) := by
  have hcn : c ∉ tree.toList.map Prod.snd := fun hm => hc (hI.node c hm hroot)
  have hmem {m : ℕ} (hm : m ∈ (tree.insertNew compareTags tg c).toList.map Prod.snd) :
      m = c ∨ m ∈ tree.toList.map Prod.snd := by
    obtain ⟨x, hx, rfl⟩ := List.mem_map.mp hm
    rcases mem_toList_insertNew hx with rfl | hx
    · exact Or.inl rfl
    · exact Or.inr (List.mem_map_of_mem hx)
  refine ⟨?_, fun m hm hmr => ?_, fun m hm b hb => ?_, fun m hm => ?_, ?_, fun tag' key hk => ?_⟩
  · refine hI.represents.link hI.ordered hn hside hnone htag hchild hcn ?_ fun m side' hne => ?_
    · rw [Function.update_self, Function.update_self]
    · by_cases hmn : m = n
      · subst hmn
        rw [Function.update_self, Function.update_of_ne (hne.resolve_left (fun h => h rfl))]
      · rw [Function.update_of_ne hmn]
  · rcases hmem hm with rfl | hm
    · rw [Function.update_self]
    · have hne : m ≠ c := fun he => hcn (he ▸ hm)
      rw [Function.update_of_ne hne, hI.node m hm hmr]
  · rcases hmem hm with rfl | hm
    · rw [hkeys] at hb
      cases hb
    · have hne : b ≠ c := fun he => hc' m (he ▸ hI.elem m hm b hb)
      rw [Function.update_of_ne hne, hI.elem m hm b hb]
  · rcases hmem hm with rfl | hm
    · rw [hkeys]
      exact Multiset.nodup_zero
    · exact hI.nodup m hm
  · rw [map_insertNew, hI.same, hkeys]
    exact (map_insertNew TagNode.keys TagNode.empty tags.nodes).symm
  · refine hI.short tag' key ?_
    have hnone' : Cik.getTagIfExists tags tg = none := by
      have hf := congrArg (SearchTree.find compareTags tg) hI.same
      rw [find_map, find_map, hfind, Option.map_none] at hf
      exact Option.map_eq_none_iff.mp hf.symm
    rw [TagTree.hasKey_iff] at hk ⊢
    obtain ⟨node, hnode, hkey⟩ := hk
    rw [getTagIfExists_getOrCreateNode, hnone'] at hnode
    split_ifs at hnode
    · cases hnode
      cases hkey
    · exact ⟨node, hnode, hkey⟩

end Parts

/-! ### Guards -/

namespace Process

variable {x y : Guard} {w w' : Option τ}

@[simp] theorem setHolder_setHolder : (s.setHolder x w).setHolder x w' = s.setHolder x w' := by
  cases x <;> simp [setHolder]

theorem setHolder_none (h : s.holder x = none) : s.setHolder x none = s := by
  cases x <;> rw [holder] at h <;> rw [setHolder, ← h, Function.update_eq_self]

theorem holder_setHolder_of_ne (h : y ≠ x) : (s.setHolder x w).holder y = s.holder y := by
  cases x <;> cases y <;> simp_all [holder, setHolder]

theorem holder_setHolder : (s.setHolder x w).holder = Function.update s.holder x w := by
  funext y
  by_cases hy : y = x
  · subst hy
    rw [Function.update_self]
    cases y <;> simp [holder, setHolder]
  · rw [Function.update_of_ne hy, holder_setHolder_of_ne hy]

@[simp] theorem setHolder_entries : (s.setHolder x w).entries = s.entries := by cases x <;> rfl

@[simp] theorem setHolder_tag : (s.setHolder x w).tag = s.tag := by cases x <;> rfl

@[simp] theorem setHolder_child : (s.setHolder x w).child = s.child := by cases x <;> rfl

@[simp] theorem setHolder_keys : (s.setHolder x w).keys = s.keys := by cases x <;> rfl

@[simp] theorem setHolder_live : (s.setHolder x w).live = s.live := by cases x <;> rfl

@[simp] theorem setHolder_partition :
    (s.setHolder x w).partition = s.partition := by cases x <;> rfl

end Process

/-- No guard is set, but for those of some entries. -/
def Free (locked : Set ℕ) (s : Process τ) : Prop :=
  ∀ x, (∀ e ∈ locked, x ≠ .entry e) → s.holder x = none

namespace Free

variable {locked : Set ℕ} {e : ℕ}

theorem slot (h : Free locked s) (p : SlotPos) : s.holder (.slot p) = none := h _ (by simp)

theorem keys (h : Free locked s) (n : ℕ) : s.holder (.keys n) = none := h _ (by simp)

theorem list (h : Free locked s) (p : ℕ) : s.holder (.list p) = none := h _ (by simp)

theorem entry (h : Free locked s) (he : e ∉ locked) : s.holder (.entry e) = none := by
  refine h _ fun e' he' heq => he ?_
  cases heq
  exact he'

theorem lock (h : Free locked s) (w : Option τ) :
    Free (insert e locked) (s.setHolder (.entry e) w) := by
  intro x hx
  rw [Process.holder_setHolder_of_ne (hx e (Set.mem_insert _ _))]
  exact h x fun e' he' => hx e' (Set.mem_insert_of_mem _ he')

theorem unlock (h : Free (insert e locked) s) : Free locked (s.setHolder (.entry e) none) := by
  intro x hx
  by_cases hxe : x = .entry e
  · subst hxe
    simp [Process.holder, Process.setHolder]
  · rw [Process.holder_setHolder_of_ne hxe]
    exact h x fun e' he' heq =>
      ((Set.mem_insert_iff.mp he').elim (fun h => hxe (h ▸ heq)) fun h => hx e' h heq)

theorem congr (h : Free locked s) (hs : s'.holder = s.holder) : Free locked s' :=
  fun x hx => by rw [hs, h x hx]

end Free

/-! ### What the operations do to it -/

namespace Rep

variable {hand hand' : Multiset ℕ} {st : Store} {b e n : ℕ} {p : SlotPos} {m : MapSlot}
  {v : CacheEntry} {tag : CacheTag}

@[simp] theorem setHolder_iff {x : Guard} {w : Option τ} : Rep hand (s.setHolder x w) st ↔
    Rep hand s st := by
  cases x <;> exact Iff.rfl

theorem finite (h : Rep hand s st) : {b | s.live b = true}.Finite := by
  obtain ⟨use, tree, hB, -, -⟩ := h
  exact hB.finite

/-- A block is reserved. -/
theorem reserve (h : Rep hand s st) (hb : s.live b = false) (hroot : b ≠ root) (partition : ℕ → ℕ) :
    Rep (b ::ₘ hand)
      { s with live := Function.update s.live b true, partition := partition } st := by
  obtain ⟨use, tree, hB, hM, hI⟩ := h
  have hnone : use b = none := by
    have hl := hB.isLive b
    rw [hb] at hl
    exact Option.not_isSome_iff_eq_none.mp (by simp [← hl])
  exact ⟨_, tree, hB.reserve hb hroot, hM.update_use (by simp [hnone]),
    hI.update_use (by simp [hnone]) (by simp [hnone])⟩

/-- A block of the worker is released. -/
theorem release (h : Rep (b ::ₘ hand) s st) :
    Rep hand { s with live := Function.update s.live b false } st := by
  obtain ⟨use, tree, hB, hM, hI⟩ := h
  have hu := hB.use_of_mem (Multiset.mem_cons_self b hand)
  exact ⟨_, tree, hB.give (o := none) (by simp), hM.update_use (by simp [hu]),
    hI.update_use (by simp [hu]) (by simp [hu])⟩

/-- A block of the worker is not the root. -/
theorem ne_root (h : Rep hand s st) (hb : b ∈ hand) : b ≠ root := by
  obtain ⟨use, tree, hB, -, -⟩ := h
  rintro rfl
  cases hB.static.symm.trans (hB.use_of_mem hb)

/-- An entry in a slot is not the worker's. -/
theorem entry_not_mem (h : Rep hand s st) (hm : s.slots p = some m) : m.entry ∉ hand := by
  obtain ⟨use, tree, hB, hM, -⟩ := h
  intro hb
  cases (hM.used p m hm).symm.trans (hB.use_of_mem hb)

/-- A worker's own entry is written. -/
theorem write (h : Rep hand s st) (he : e ∈ hand) (v : CacheEntry) :
    Rep hand { s with entries := Function.update s.entries e v } st := by
  obtain ⟨use, tree, hB, hM, hI⟩ := h
  exact ⟨use, tree, hB, hM.write_other (by simp [hB.use_of_mem he]), hI⟩

/-- An entry in a slot is written. -/
theorem touch (h : Rep hand s st) (hm : s.slots p = some m) (hk : v.key = (s.entries m.entry).key) :
    Rep hand { s with entries := Function.update s.entries m.entry v }
      ⟨Function.update st.maps p.1 ((st.maps p.1).put p.2 v), st.tags⟩ := by
  obtain ⟨use, tree, hB, hM, hI⟩ := h
  exact ⟨use, tree, hB, hM.write hm hk, hI⟩

/-- The slot of an entry is cleared, and the entry is the worker's. -/
theorem clear (h : Rep hand s st) (hm : s.slots p = some m) :
    Rep (m.entry ::ₘ hand) { s with slots := Function.update s.slots p none }
      ⟨Function.update st.maps p.1 ((st.maps p.1).clear p.2), st.tags⟩ := by
  obtain ⟨use, tree, hB, hM, hI⟩ := h
  have hu := hM.used p m hm
  exact ⟨_, tree, hB.take hu (by simp), hM.clear hm, hI.update_use (by simp [hu]) (by simp [hu])⟩

/-- An entry of the worker is put into a free slot. -/
theorem fill (h : Rep (e ::ₘ hand) s st) (hfree : s.slots p = none) :
    Rep hand { s with slots := Function.update s.slots p (some ⟨getKeyHash (s.entries e).key, e⟩) }
      ⟨Function.update st.maps p.1 ((st.maps p.1).put p.2 (s.entries e)), st.tags⟩ := by
  obtain ⟨use, tree, hB, hM, hI⟩ := h
  have hu := hB.use_of_mem (Multiset.mem_cons_self e hand)
  have hlive : Function.update s.live e (some (Use.slot p)).isSome = s.live := by
    refine Function.update_eq_self_iff.mpr ?_
    rw [hB.isLive, hu]
    rfl
  have hB' := hB.give (o := some (.slot p)) (by simp)
  rw [hlive] at hB'
  exact ⟨_, tree, hB', hM.fill hfree (by simp [hu]), hI.update_use (by simp [hu]) (by simp [hu])⟩

/-- An entry of the worker is put into the slot of another, which is the worker's then. -/
theorem exchange (h : Rep (e ::ₘ hand) s st) (hm : s.slots p = some m) :
    Rep (m.entry ::ₘ hand)
      { s with slots := Function.update s.slots p (some ⟨getKeyHash (s.entries e).key, e⟩) }
      ⟨Function.update st.maps p.1 ((st.maps p.1).put p.2 (s.entries e)), st.tags⟩ := by
  have hc := h.clear hm
  rw [Multiset.cons_swap] at hc
  have hf := hc.fill (p := p) (by simp)
  simpa [CacheEntryHashMap.put, CacheEntryHashMap.clear] using hf

/-- A node of the worker is filled in. -/
theorem initNode (h : Rep hand s st) (hn : n ∈ hand) (tag : CacheTag) (keysLock : ℕ → Option τ) :
    Rep hand { s with
      tag := Function.update s.tag n tag
      child := Function.update s.child n fun _ => none
      keys := Function.update s.keys n []
      keysLock := keysLock } st := by
  have hroot := h.ne_root hn
  obtain ⟨use, tree, hB, hM, hI⟩ := h
  exact ⟨use, tree, hB, hM, hI.init hroot (by simp [hB.use_of_mem hn]) _ _ _⟩

end Rep

/-! ### The node of a tag -/

/-- The search for a tag finds the node. -/
def NodeOf (s : Process τ) (tag : CacheTag) (n : ℕ) : Prop :=
  ∀ tree, Represents s.tag s.child (some root) tree → tree.find compareTags tag = some n

/-- The search for a tag meets the node and goes on at the side. -/
def OnPath (s : Process τ) (tag : CacheTag) (n : ℕ) (side : Side) : Prop :=
  (∀ tree, Represents s.tag s.child (some root) tree → n ∈ tree.path compareTags tag) ∧
    compareTags tag (s.tag n) = side.ordering

namespace Rep

variable {hand hand' : Multiset ℕ} {st : Store} {n c : ℕ} {tag : CacheTag} {side : Side}

/-- The list of a node is replaced by one made of its elements and of blocks of the worker. -/
theorem relist (h : Rep hand s st) (hn : NodeOf s tag n) (l' : List KeyElem) (f : TagNode → TagNode)
    (g : List CacheKey → List CacheKey) (hb : bases l' + hand' = bases (s.keys n) + hand)
    (hf : ∀ node, (f node).keys = g node.keys) (hg : g (keysOf (s.keys n)) = keysOf l')
    (hshort : ∀ tag' key, (modifyNode st.tags tag f).HasKey tag' key → key.length ≤ 255) :
    Rep hand' { s with keys := Function.update s.keys n l' }
      ⟨st.maps, modifyNode st.tags tag f⟩ := by
  obtain ⟨use, tree, hB, hM, hI⟩ := h
  have hfind := hn tree hI.represents
  have hmem : n ∈ tree.toList.map Prod.snd :=
    List.mem_map_of_mem ((hI.ordered.mem_toList_iff tag n).mpr hfind)
  refine ⟨_, tree, hB.relist hI hmem hb, hM.pass fun b p hu => ?_,
    hI.relist hB hmem hb hfind hf hg hshort⟩
  exact relistUse_eq hB hI hmem hb hu (by simp) (by simp)

/-- A node of the worker is linked, and is the node of its tag then. -/
theorem link (h : Rep (c ::ₘ hand) s st) (hn : OnPath s tag n side) (hnone : s.child n side = none)
    (htag : s.tag c = tag) (hchild : ∀ side, s.child c side = none) (hkeys : s.keys c = [])
    {s' : Process τ}
    (hs' : s' =
      { s with child := Function.update s.child n (Function.update (s.child n) side (some c)) }) :
    Rep hand s' ⟨st.maps, Cik.getOrCreateNode st.tags tag⟩ ∧ NodeOf s' tag c := by
  subst hs'
  have hroot := h.ne_root (Multiset.mem_cons_self c hand)
  obtain ⟨use, tree, hB, hM, hI⟩ := h
  have hu := hB.use_of_mem (Multiset.mem_cons_self c hand)
  have hpath := hn.1 tree hI.represents
  have hfind := hI.represents.find_eq_none hpath hn.2 hnone
  have hlive : Function.update s.live c (some Use.node).isSome = s.live := by
    refine Function.update_eq_self_iff.mpr ?_
    rw [hB.isLive, hu]
    rfl
  have hB' := hB.give (o := some .node) (by simp)
  rw [hlive] at hB'
  have hI' := hI.link hpath hn.2 hnone (by simp [hu]) (by simp [hu]) hroot htag hchild hkeys hfind
  refine ⟨⟨_, _, hB', hM.update_use (by simp [hu]), hI'⟩, fun tree' ht => ?_⟩
  rw [ht.unique hI'.represents, find_insertNew, if_pos rfl, hfind, Option.getD_none]

/-- What the search for a tag finds. -/
theorem find_eq (h : Rep hand s st) (tag : CacheTag) {tree : SearchTree CacheTag ℕ}
    (ht : Represents s.tag s.child (some root) tree) :
    (tree.find compareTags tag).map (fun n => keysOf (s.keys n)) =
    (Cik.getTagIfExists st.tags tag).map TagNode.keys := by
  obtain ⟨use, tree', -, -, hI⟩ := h
  rw [ht.unique hI.represents, ← find_map, hI.same, find_map]
  rfl

/-- The keys of the index are no longer than a request can make them. -/
theorem short (h : Rep hand s st) (tag : CacheTag) {key : CacheKey} (hk : st.tags.HasKey tag key) :
    key.length ≤ 255 := by
  obtain ⟨use, tree, -, -, hI⟩ := h
  exact hI.short tag key hk

end Rep

end Guarded

end Cik

import Cik.Source.Controller
import Cik.Library.LinkedTree
import Cik.Library.Programs

/-!
# What the handlers do to shared memory

The operations that the six handlers of `controller.c` are made of, when any number of
workers run them: taking and releasing the guard of a slot, the guard of an entry, the
lock of a key list and the mark of a free list; reading and writing slots, entries, tag
nodes and key lists; and reserving and releasing memory. `Op.act` says what each of them
does, in one step, to what the threads share.

An entry, a tag node and an element of a key list are named by the address of their
block. Of a flag it is kept who has set it, of which the code knows only whether anyone
has. What is read and written under a guard is read and written in one step: the three
fields of a slot, the fields of an entry, the list of a node. Which bucket a reservation
gives is left open; it is none that is live. The counters are left out.
-/

namespace Cik

namespace Guarded

/-- A slot of one of the hash maps. -/
abbrev SlotPos := Fin NUM_CACHE_ENTRY_MAPS × Fin CACHE_ENTRY_MAP_SIZE

/-- What is in a slot that is in use: `hashes[pos]` and `entries[pos]`. -/
structure MapSlot where
  /-- The hash. -/
  hash : UInt32
  /-- The address of the entry. -/
  entry : ℕ
  deriving DecidableEq

/-- An element of a key list. -/
structure KeyElem where
  /-- Its address. -/
  base : ℕ
  /-- The key. -/
  key : CacheKey
  deriving DecidableEq

/-- What a thread can spin on. -/
inductive Guard where
  /-- `map->guards[pos]`. -/
  | slot (p : SlotPos)
  /-- `entry->guard`. -/
  | entry (e : ℕ)
  /-- `node->keys_lock`. -/
  | keys (n : ℕ)
  /-- The mark of `partition->free_buckets`. -/
  | list (p : ℕ)
  deriving DecidableEq

/-- The address of `root`. -/
def root : ℕ := 0

/-- What the threads share. -/
structure Process (τ : Type*) where
  /-- Who has set `map->guards[pos]`. -/
  slotGuard : SlotPos → Option τ
  /-- Who has set `entry->guard`. -/
  entryGuard : ℕ → Option τ
  /-- Who has set `node->keys_lock`. -/
  keysLock : ℕ → Option τ
  /-- Who has marked `partition->free_buckets`. -/
  mark : ℕ → Option τ
  /-- The slots in use. -/
  slots : SlotPos → Option MapSlot
  /-- What is in the blocks that are entries. -/
  entries : ℕ → CacheEntry
  /-- `node->tag`. -/
  tag : ℕ → CacheTag
  /-- `node->left` and `node->right`. -/
  child : ℕ → Side → Option ℕ
  /-- The list that begins at `node->keys`. -/
  keys : ℕ → List KeyElem
  /-- The blocks that are reserved and not released. -/
  live : ℕ → Bool
  /-- `bucket->partition`. -/
  partition : ℕ → ℕ

namespace Process

variable {τ : Type*}

/-- Who has set a flag. -/
def holder (s : Process τ) : Guard → Option τ
  | .slot p => s.slotGuard p
  | .entry e => s.entryGuard e
  | .keys n => s.keysLock n
  | .list p => s.mark p

/-- A flag is set or cleared. -/
def setHolder (s : Process τ) (g : Guard) (o : Option τ) : Process τ :=
  match g with
  | .slot p => { s with slotGuard := Function.update s.slotGuard p o }
  | .entry e => { s with entryGuard := Function.update s.entryGuard e o }
  | .keys n => { s with keysLock := Function.update s.keysLock n o }
  | .list p => { s with mark := Function.update s.mark p o }

end Process

/-- The operations. -/
inductive Op where
  /-- `LOCK_SLOT`, `LOCK_ENTRY`, `LOCK_KEYS`: done as soon as the flag is found clear. -/
  | lock (g : Guard)
  /-- `MARK_POINTER`: whether the mark was set by this. -/
  | tryLock (g : Guard)
  /-- `UNLOCK_SLOT`, `UNLOCK_ENTRY`, `UNLOCK_KEYS`; `WRITE_POINTER` or `UNMARK_POINTER`. -/
  | unlock (g : Guard)
  /-- A slot is read. -/
  | readSlot (p : SlotPos)
  /-- `return map->entries[pos]`, where the entry `e` had the key. -/
  | returnEntry (p : SlotPos) (e : ℕ) (key : CacheKey)
  /-- A slot is written. -/
  | writeSlot (p : SlotPos) (v : Option MapSlot)
  /-- An entry is read. -/
  | readEntry (e : ℕ)
  /-- An entry is written. -/
  | writeEntry (e : ℕ) (v : CacheEntry)
  /-- `*entry = CACHE_ENTRY_INIT`. -/
  | initEntry (e : ℕ)
  /-- An entry has been written with its parts, `bytes` bytes from its beginning on, to a block
  that was reserved with `size`. -/
  | fill (e : ℕ) (size : UInt32) (bytes : ℕ)
  /-- `node->tag`. -/
  | readTag (n : ℕ)
  /-- `TAG_NODE_LEFT`, `TAG_NODE_RIGHT`. -/
  | readChild (n : ℕ) (side : Side)
  /-- A new node is filled in. -/
  | initNode (n : ℕ) (tag : CacheTag)
  /-- `atomic_compare_exchange_strong`, where no child is expected: whether there was none. -/
  | exchangeChild (n : ℕ) (side : Side) (child : ℕ)
  /-- A key list is read. -/
  | readKeys (n : ℕ)
  /-- A key list is written. -/
  | writeKeys (n : ℕ) (l : List KeyElem)
  /-- The bucket that a reservation takes from a partition, or none. -/
  | bucket (p : ℕ)
  /-- `release_memory`: done as soon as the exchange finds the list without a mark. -/
  | release (b : ℕ)
  /-- `time`. -/
  | time
  /-- `read_request_payload`. -/
  | read (nmemb : ℕ)
  /-- `populate_nfo_response`. -/
  | info
  /-- A null pointer is dereferenced, or `reverse_bytes` runs on beyond the memory there is. -/
  | crash

/-- What an operation answers. -/
@[reducible] def Op.Answer : Op → Type
  | .lock _ => Unit
  | .tryLock _ => Bool
  | .unlock _ => Unit
  | .readSlot _ => Option MapSlot
  | .returnEntry _ _ _ => Option ℕ
  | .writeSlot _ _ => Unit
  | .readEntry _ => CacheEntry
  | .writeEntry _ _ => Unit
  | .initEntry _ => Unit
  | .fill _ _ _ => Unit
  | .readTag _ => CacheTag
  | .readChild _ _ => Option ℕ
  | .initNode _ _ => Unit
  | .exchangeChild _ _ _ => Bool
  | .readKeys _ => List KeyElem
  | .writeKeys _ _ => Unit
  | .bucket _ => Option ℕ
  | .release _ => Unit
  | .time => Time
  | .read _ => StatusCode × List UInt8
  | .info => ServerInfo
  | .crash => Empty

/-- `CACHE_ENTRY_INIT`, made at some time. -/
def cacheEntryInit (now : Time) : CacheEntry := ⟨[], [], [], now, CACHE_EXPIRES_INIT, 0⟩

/-- What an operation of the thread `t` does, where blocks hold what is written to them. -/
def Op.act {τ : Type*} (t : τ) (s : Process τ) : (o : Op) → o.Answer → Process τ → Prop
  | .lock g, _, s' => s.holder g = none ∧ s' = s.setHolder g (some t)
  | .tryLock g, r, s' => r = (s.holder g).isNone ∧ s' = if r then s.setHolder g (some t) else s
  | .unlock g, _, s' => s' = s.setHolder g none
  | .readSlot p, r, s' => r = s.slots p ∧ s' = s
  | .returnEntry p _ _, r, s' => r = (s.slots p).map MapSlot.entry ∧ s' = s
  | .writeSlot p v, _, s' => s' = { s with slots := Function.update s.slots p v }
  | .readEntry e, r, s' => r = s.entries e ∧ s' = s
  | .writeEntry e v, _, s' => s' = { s with entries := Function.update s.entries e v }
  | .initEntry e, _, s' => ∃ now, s' =
    { s with
      entries := Function.update s.entries e (cacheEntryInit now)
      entryGuard := Function.update s.entryGuard e none }
  | .fill _ _ _, _, s' => s' = s
  | .readTag n, r, s' => r = s.tag n ∧ s' = s
  | .readChild n side, r, s' => r = s.child n side ∧ s' = s
  | .initNode n tag, _, s' => s' =
    { s with
      tag := Function.update s.tag n tag
      child := Function.update s.child n fun _ => none
      keys := Function.update s.keys n []
      keysLock := Function.update s.keysLock n none }
  | .exchangeChild n side child, r, s' => r = (s.child n side).isNone ∧ s' =
    if r then
      { s with child := Function.update s.child n (Function.update (s.child n) side (some child)) }
      else s
  | .readKeys n, r, s' => r = s.keys n ∧ s' = s
  | .writeKeys n l, _, s' => s' = { s with keys := Function.update s.keys n l }
  | .bucket _, none, s' => s' = s
  | .bucket p, some b, s' => s.live b = false ∧ b ≠ root ∧ s' =
    { s with live := Function.update s.live b true, partition := Function.update s.partition b p }
  | .release b, _, s' => s.mark (s.partition b) = none ∧
    s' = { s with live := Function.update s.live b false }
  | .time, _, s' => s' = s
  | .read nmemb, r, s' =>
    (r.1 = .ok ∧ r.2.length = nmemb ∨ r.1 = .connectionClosed ∨ r.1 = .networkError) ∧ s' = s
  | .info, _, s' => s' = s
  | .crash, r, _ => r.elim

/-! ### Past the end of a block -/

/-- More is written than the block has that such a size is given. -/
def Op.overruns : Op → Bool
  | .fill _ size bytes => (partitionSizes.find? (size.toNat ≤ ·)).any (· < bytes)
  | _ => false

/-- What lies behind the block `e` has been written over, up to `bytes` bytes from its beginning on:
other blocks, of whose contents nothing more is said, and their headers, which say what partition
they are of. The maps and the partitions are elsewhere. -/
structure Spilled {τ : Type*} (e bytes : ℕ) (s s' : Process τ) : Prop where
  /-- `map->guards`. -/
  slotGuard : s'.slotGuard = s.slotGuard
  /-- The slots. -/
  slots : s'.slots = s.slots
  /-- The marks. -/
  mark : s'.mark = s.mark
  /-- What is reserved. -/
  live : s'.live = s.live
  /-- What is in other blocks. -/
  others : ∀ b, b ≤ e ∨ e + bytes ≤ b → s'.entryGuard b = s.entryGuard b ∧
    s'.entries b = s.entries b ∧ s'.keysLock b = s.keysLock b ∧ s'.tag b = s.tag b ∧
    s'.child b = s.child b
  /-- The key lists that have none of these blocks. -/
  keys : ∀ n, n ≤ e ∨ e + bytes ≤ n → (∀ elem ∈ s.keys n, elem.base ≤ e ∨ e + bytes ≤ elem.base) →
    s'.keys n = s.keys n
  /-- The headers of other blocks. -/
  partition : ∀ b, b ≤ e ∨ e + bytes + padded sizeofBucket ≤ b → s'.partition b = s.partition b

/-- What an operation does: to what lies behind a block too, when more is written than it has. -/
def Op.effect {τ : Type*} (t : τ) (s : Process τ) : (o : Op) → o.Answer → Process τ → Prop
  | .fill e size bytes, _, s' =>
  if (Op.fill e size bytes).overruns then Spilled e bytes s s' else s' = s
  | o, r, s' => o.act t s r s'

/-- Where nothing is written past a block, this is all. -/
theorem Op.act_of_effect {τ : Type*} {t : τ} {s s' : Process τ} {o : Op} {r : o.Answer}
    (h : o.effect t s r s') (ho : o.overruns = false) : o.act t s r s' := by
  cases o with
  | fill e size bytes =>
    rw [Op.effect, ho] at h
    exact h
  | _ => exact h

theorem Op.effect_of_act {τ : Type*} {t : τ} {s s' : Process τ} {o : Op} {r : o.Answer}
    (h : o.act t s r s') (ho : o.overruns = false) : o.effect t s r s' := by
  cases o with
  | fill e size bytes =>
    rw [Op.effect, ho]
    exact h
  | _ => exact h

/-- A program over these operations. -/
abbrev Program := Prog Op.Answer

/-! ### The operations as programs -/

/-- `LOCK_SLOT`, `LOCK_ENTRY`, `LOCK_KEYS`. -/
def lock (g : Guard) : Program Unit := .op (.lock g) .pure

/-- `MARK_POINTER`. -/
def tryLock (g : Guard) : Program Bool := .op (.tryLock g) .pure

/-- `UNLOCK_SLOT`, `UNLOCK_ENTRY`, `UNLOCK_KEYS`, `WRITE_POINTER`, `UNMARK_POINTER`. -/
def unlock (g : Guard) : Program Unit := .op (.unlock g) .pure

/-- A slot is read. -/
def readSlot (p : SlotPos) : Program (Option MapSlot) := .op (.readSlot p) .pure

/-- `return map->entries[pos]`. -/
def returnEntry (p : SlotPos) (e : ℕ) (key : CacheKey) : Program (Option ℕ) :=
  .op (.returnEntry p e key) .pure

/-- A slot is written. -/
def writeSlot (p : SlotPos) (v : Option MapSlot) : Program Unit := .op (.writeSlot p v) .pure

/-- An entry is read. -/
def readEntry (e : ℕ) : Program CacheEntry := .op (.readEntry e) .pure

/-- An entry is written. -/
def writeEntry (e : ℕ) (v : CacheEntry) : Program Unit := .op (.writeEntry e v) .pure

/-- `*entry = CACHE_ENTRY_INIT`. -/
def initEntry (e : ℕ) : Program Unit := .op (.initEntry e) .pure

/-- The parts of an entry have been written. -/
def fill (e : ℕ) (size : UInt32) (bytes : ℕ) : Program Unit := .op (.fill e size bytes) .pure

/-- `node->tag`. -/
def readTag (n : ℕ) : Program CacheTag := .op (.readTag n) .pure

/-- `TAG_NODE_LEFT`, `TAG_NODE_RIGHT`. -/
def readChild (n : ℕ) (side : Side) : Program (Option ℕ) := .op (.readChild n side) .pure

/-- A new node is filled in. -/
def initNode (n : ℕ) (tag : CacheTag) : Program Unit := .op (.initNode n tag) .pure

/-- `atomic_compare_exchange_strong`. -/
def exchangeChild (n : ℕ) (side : Side) (child : ℕ) : Program Bool :=
  .op (.exchangeChild n side child) .pure

/-- A key list is read. -/
def readKeys (n : ℕ) : Program (List KeyElem) := .op (.readKeys n) .pure

/-- A key list is written. -/
def writeKeys (n : ℕ) (l : List KeyElem) : Program Unit := .op (.writeKeys n l) .pure

/-- The bucket that a reservation takes. -/
def bucket (p : ℕ) : Program (Option ℕ) := .op (.bucket p) .pure

/-- `release_memory`. -/
def release (b : ℕ) : Program Unit := .op (.release b) .pure

/-- `time`. -/
def time : Program Time := .op .time .pure

/-- `read_request_payload`. -/
def read (nmemb : ℕ) : Program (StatusCode × List UInt8) := .op (.read nmemb) .pure

/-- `populate_nfo_response`. -/
def info : Program ServerInfo := .op .info .pure

/-- The process ends: a null pointer is dereferenced, or `reverse_bytes` does not return. -/
def crash {α : Type} : Program α := .op .crash Empty.elim

end Guarded

end Cik

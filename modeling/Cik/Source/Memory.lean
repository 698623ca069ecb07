import Cik.Source.Types

/-!
# The allocator

`memory.c`. One region of memory is mapped at start-up and handed out from its
beginning on, by a cursor that never goes back. A reservation is rounded up to the
size of a partition; a block that is released goes to the free list of its partition,
and is handed out again from there. Calls are made one at a time here, so a free list
is never found marked.

A partition is named by its size: a bucket says in `partition` how many bytes it can
hold. A partition carries with it that the buckets on its free list are its own, and
the allocator that its partitions are those made at start-up.
-/

namespace Cik

/-! ### Sizes -/

/-- `sizeof (CacheEntry)`. -/
def sizeofCacheEntry : ℕ := 72

/-- `sizeof (CacheTag)`. -/
def sizeofCacheTag : ℕ := 16

/-- `sizeof (CacheEntryHashMap)`. -/
def sizeofCacheEntryHashMap : ℕ := 11160

/-- `sizeof (Partition)`. -/
def sizeofPartition : ℕ := 40

/-- `sizeof (Bucket)`. -/
def sizeofBucket : ℕ := 24

/-- `sizeof (CacheEntryHashMap *)`. -/
def sizeofPointer : ℕ := 8

/-- `alignof (max_align_t)`. -/
def alignofMaxAlign : ℕ := 16

/-- `PADDING`. -/
def padding (s : ℕ) : ℕ := (alignofMaxAlign - s % alignofMaxAlign) % alignofMaxAlign

/-- `PADDED`, and `TPADDED` of a type of this size. -/
def padded (s : ℕ) : ℕ := s + padding s

/-! ### Partitions -/

/-- A bucket: where its data begins, and the size of its partition. -/
structure Bucket where
  /-- The address of the data. -/
  data : ℕ
  /-- The size of the partition. -/
  partition : ℕ
  deriving DecidableEq

/-- A partition. -/
structure Partition where
  /-- How many bytes its buckets can hold. -/
  size : ℕ
  /-- The buckets released, the last one first. -/
  free_buckets : List Bucket
  /-- How many buckets are handed out. -/
  num_used : UInt32
  /-- How many are free. -/
  num_free : UInt32
  /-- How often a free one was handed out again. -/
  num_reused : UInt32
  /-- The free buckets are the partition's own. -/
  free_ok : ∀ b ∈ free_buckets, b.partition = size

namespace Partition

/-- A partition at start-up. -/
def init (size : ℕ) : Partition := ⟨size, [], 0, 0, 0, by simp⟩

/-- The first free bucket is handed out. -/
def popFree (p : Partition) : Partition :=
  { p with
    free_buckets := p.free_buckets.tail
    num_free := p.num_free - 1
    num_reused := p.num_reused + 1
    num_used := p.num_used + 1
    free_ok := fun b hb => p.free_ok b (List.mem_of_mem_tail hb) }

/-- A new bucket is handed out. -/
def addUsed (p : Partition) : Partition := { p with num_used := p.num_used + 1 }

/-- A bucket is released; it is put on the list of its own partition. -/
def pushFree (b : Bucket) (p : Partition) : Partition :=
  if h : b.partition = p.size then
    { p with
      free_buckets := b :: p.free_buckets
      num_free := p.num_free + 1
      num_used := p.num_used - 1
      free_ok := fun _ hb' => (List.mem_cons.mp hb').elim (fun e => e ▸ h) (p.free_ok _) }
  else p

end Partition

/-- The sizes of the partitions, from `size` on. -/
def sizesFrom : ℕ → ℕ → List ℕ
  | 0, _ => []
  | fuel + 1, size => if size ≤ MAX_BUCKET_SIZE then size :: sizesFrom fuel (size <<< 1) else []

/-- The sizes of the partitions. A `u32` is doubled 32 times at most. -/
def partitionSizes : List ℕ := sizesFrom 32 MIN_BUCKET_SIZE

/-- The allocator's state. -/
structure Memory where
  /-- Where the region begins. -/
  main_memory : ℕ
  /-- Where what was not yet handed out begins. -/
  memory_cursor : ℕ
  /-- The partitions, from the smallest on. -/
  partitions : List Partition
  /-- They are those made at start-up. -/
  sizes_eq : partitions.map Partition.size = partitionSizes

namespace Memory

/-- The allocator with one partition changed. -/
def modify (m : Memory) (size : ℕ) (f : Partition → Partition) (hf : ∀ p, (f p).size = p.size) :
    Memory :=
  { m with
    partitions := m.partitions.map fun p => if p.size = size then f p else p
    sizes_eq := by
      rw [List.map_map, ← m.sizes_eq]
      refine List.map_congr_left fun p _ => ?_
      simp only [Function.comp]
      split_ifs
      · exact hf p
      · rfl }

end Memory

/-- `push_memory`. The cursor moves also when there is no room. -/
def pushMemory (m : Memory) (size : ℕ) : Option ℕ × Memory :=
  let ptr := m.memory_cursor
  let m := { m with memory_cursor := ptr + size }
  if ptr + size > m.main_memory + MAX_TOTAL_MEMORY then (none, m) else (some ptr, m)

/-- `total_partition_size`. -/
def totalPartitionSize : ℕ := padded (partitionSizes.length * sizeofPartition)

/-- `total_hash_map_array_size`. -/
def totalHashMapArraySize : ℕ := padded (NUM_CACHE_ENTRY_MAPS * sizeofPointer)

/-- `total_hash_maps_size`. -/
def totalHashMapsSize : ℕ := NUM_CACHE_ENTRY_MAPS * padded sizeofCacheEntryHashMap

/-- `total_system_size`. -/
def totalSystemSize : ℕ := totalPartitionSize + totalHashMapArraySize + totalHashMapsSize

/-- `init_memory`, for a region mapped at `main_memory`: the partitions and the hash maps
take the first `total_system_size` bytes. -/
def initMemory (main_memory : ℕ) : Memory where
  main_memory := main_memory
  memory_cursor := main_memory + totalSystemSize
  partitions := partitionSizes.map Partition.init
  sizes_eq := by rw [List.map_map]; exact List.map_id _

/-- What `reserve_memory` makes of what `push_memory` answered. -/
def newBucket (p : Partition) : Option ℕ × Memory → Option Bucket × Memory
  | (none, m) => (none, m)
  | (some ptr, m) =>
    (some ⟨ptr + padded sizeofBucket, p.size⟩, m.modify p.size Partition.addUsed fun _ => rfl)

/-- `reserve_memory`: the bucket, or none. -/
def reserveMemory (m : Memory) (size : UInt32) : Option Bucket × Memory :=
  match m.partitions.find? fun p => size.toNat ≤ p.size with
  | none => (none, m)
  | some p =>
    match p.free_buckets with
    | bucket :: _ => (some bucket, m.modify p.size Partition.popFree fun _ => rfl)
    | [] => newBucket p (pushMemory m (padded sizeofBucket + padded p.size))

/-- `release_memory`. -/
def releaseMemory (m : Memory) (bucket : Bucket) : Memory :=
  m.modify bucket.partition (Partition.pushFree bucket) fun p => by
    unfold Partition.pushFree
    split_ifs <;> rfl

/-- What `reserve_and_lock_entry` asks `reserve_memory` for: a `size_t` sum, taken as a `u32`. -/
def entrySize (payload_size : UInt64) : UInt32 :=
  (UInt64.ofNat sizeofCacheEntry + payload_size).toUInt32

/-- `reserve_and_lock_entry`: the bucket of the entry, or none. -/
def reserveAndLockEntry (m : Memory) (payload_size : UInt64) : Option Bucket × Memory :=
  reserveMemory m (entrySize payload_size)

/-- The sum over the partitions in `populate_nfo_response`. -/
def sumPartitions (m : Memory) (count : Partition → UInt32) : UInt32 :=
  m.partitions.foldl (fun sum p => sum + UInt32.ofNat p.size * count p) 0

/-- `populate_nfo_response`. -/
def populateNfoResponse (m : Memory) : ServerInfo where
  bytes_reserved := UInt32.ofNat (MAX_TOTAL_MEMORY - totalSystemSize)
  bytes_used := sumPartitions m Partition.num_used
  bytes_free := sumPartitions m Partition.num_free
  bytes_reused := sumPartitions m Partition.num_reused

/-- The states of the allocator, with the blocks that are live in them. -/
inductive Memory.Reach : Memory → List Bucket → Prop where
  /-- At start-up nothing is live. -/
  | init (main_memory : ℕ) : Reach (initMemory main_memory) []
  /-- A reservation that succeeds. -/
  | reserve {m m' : Memory} {live : List Bucket} {size : UInt32} {b : Bucket} :
      Reach m live → reserveMemory m size = (some b, m') → Reach m' (b :: live)
  /-- A reservation that fails. -/
  | refuse {m m' : Memory} {live : List Bucket} {size : UInt32} :
      Reach m live → reserveMemory m size = (none, m') → Reach m' live
  /-- The release of a live block. -/
  | release {m : Memory} {live : List Bucket} {b : Bucket} :
      Reach m live → b ∈ live → Reach (releaseMemory m b) (live.erase b)

/-! ### What a reservation gives -/

theorem partitionSizes_eq : partitionSizes =
    [0x100, 0x200, 0x400, 0x800, 0x1000, 0x2000, 0x4000, 0x8000, 0x10000, 0x20000, 0x40000, 0x80000,
      0x100000, 0x200000, 0x400000, 0x800000] := by
  simp [partitionSizes, sizesFrom, MIN_BUCKET_SIZE, MAX_BUCKET_SIZE]

theorem le_of_mem_sizesFrom {fuel size n : ℕ} (h : n ∈ sizesFrom fuel size) :
    n ≤ MAX_BUCKET_SIZE := by
  induction fuel generalizing size with
  | zero => simp [sizesFrom] at h
  | succ fuel ih =>
    rw [sizesFrom] at h
    split_ifs at h with hs
    · rcases List.mem_cons.mp h with rfl | h
      · exact hs
      · exact ih h
    · simp at h

theorem le_of_mem_partitionSizes {n : ℕ} (h : n ∈ partitionSizes) : n ≤ MAX_BUCKET_SIZE :=
  le_of_mem_sizesFrom h

theorem totalSystemSize_eq : totalSystemSize = 71761744 := by
  simp [totalSystemSize, totalPartitionSize, totalHashMapArraySize, totalHashMapsSize,
    partitionSizes_eq, padded, padding, alignofMaxAlign, sizeofPartition, sizeofPointer,
    sizeofCacheEntryHashMap, NUM_CACHE_ENTRY_MAPS]

theorem padded_le (s : ℕ) : padded s ≤ s + 16 := by
  have := Nat.mod_lt (alignofMaxAlign - s % alignofMaxAlign) (show alignofMaxAlign > 0 by decide)
  have h16 : alignofMaxAlign = 16 := rfl
  unfold padded padding
  omega

theorem newBucket_partition {p : Partition} {pushed : Option ℕ × Memory} {b : Bucket}
    (h : (newBucket p pushed).1 = some b) : b.partition = p.size := by
  obtain ⟨_ | ptr, m⟩ := pushed
  · cases h
  · exact (Option.some.inj h) ▸ rfl

theorem pushMemory_isSome {m : Memory} {size : ℕ}
    (h : m.memory_cursor + size ≤ m.main_memory + MAX_TOTAL_MEMORY) :
    ((pushMemory m size).1).isSome := by
  rw [pushMemory, if_neg (Nat.not_lt.mpr h)]
  rfl

theorem newBucket_isSome {p : Partition} {pushed : Option ℕ × Memory} (h : pushed.1.isSome) :
    ((newBucket p pushed).1).isSome := by
  obtain ⟨_ | ptr, m⟩ := pushed
  · cases h
  · rfl

/-- A block is big enough for what was asked, and no bigger than the biggest bucket. -/
theorem reserveMemory_fits {m : Memory} {size : UInt32} {b : Bucket}
    (h : (reserveMemory m size).1 = some b) :
    size.toNat ≤ b.partition ∧ b.partition ≤ MAX_BUCKET_SIZE := by
  unfold reserveMemory at h
  cases hf : m.partitions.find? fun p => size.toNat ≤ p.size with
  | none => simp [hf] at h
  | some p =>
    have hp : size.toNat ≤ p.size := by simpa using List.find?_some hf
    have hmax : p.size ≤ MAX_BUCKET_SIZE := by
      apply le_of_mem_partitionSizes
      rw [← m.sizes_eq]
      exact List.mem_map_of_mem (List.mem_of_find?_eq_some hf)
    suffices hb : b.partition = p.size by rw [hb]; exact ⟨hp, hmax⟩
    rw [hf] at h
    simp only at h
    cases hl : p.free_buckets with
    | cons b' rest =>
      simp only [hl, Option.some.injEq] at h
      exact p.free_ok b (by rw [hl, h]; exact List.mem_cons_self)
    | nil =>
      rw [hl] at h
      exact newBucket_partition h

/-- Sizes beyond the biggest bucket are refused. -/
theorem reserveMemory_eq_none {m : Memory} {size : UInt32} (h : MAX_BUCKET_SIZE < size.toNat) :
    (reserveMemory m size).1 = none := by
  cases hr : (reserveMemory m size).1 with
  | none => rfl
  | some b =>
    have := reserveMemory_fits hr
    omega

/-- At start-up there is room for any block. -/
theorem reserveMemory_initMemory (main_memory : ℕ) {size : UInt32}
    (h : size.toNat ≤ MAX_BUCKET_SIZE) :
    ((reserveMemory (initMemory main_memory) size).1).isSome := by
  have hmem : ∃ p ∈ (initMemory main_memory).partitions, size.toNat ≤ p.size :=
    ⟨Partition.init MAX_BUCKET_SIZE,
      List.mem_map_of_mem (by simp [partitionSizes_eq, MAX_BUCKET_SIZE]), h⟩
  cases hf : (initMemory main_memory).partitions.find? fun p => size.toNat ≤ p.size with
  | none =>
    obtain ⟨p, hp, hs⟩ := hmem
    exact absurd hs (by simpa using List.find?_eq_none.mp hf p hp)
  | some p =>
    obtain ⟨n, hn, rfl⟩ := List.mem_map.mp (List.mem_of_find?_eq_some hf)
    have hpush :
        ((pushMemory (initMemory main_memory) (padded sizeofBucket + padded n)).1).isSome := by
      apply pushMemory_isSome
      have hmax : n ≤ 0x800000 := le_of_mem_partitionSizes hn
      have hb : padded sizeofBucket ≤ 40 := padded_le _
      have hn := padded_le n
      have ht : MAX_TOTAL_MEMORY = 0xFFFFFFFF := rfl
      have hs := totalSystemSize_eq
      change main_memory + totalSystemSize + _ ≤ main_memory + MAX_TOTAL_MEMORY
      omega
    unfold reserveMemory
    rw [hf]
    exact newBucket_isSome hpush

/-! ### The process around a request -/

/-- What a request gets from the rest of the process: the clock, what `reserve_memory`
answers (how many bytes the block can hold), and the allocator's statistics. -/
structure Env where
  /-- The clock. -/
  now : Time
  /-- The answer of `reserve_memory`. -/
  reserve : UInt32 → Option ℕ
  /-- The answer of `populate_nfo_response`. -/
  info : ServerInfo
  /-- A block is big enough, and no bigger than the biggest bucket. -/
  fits : ∀ size n, reserve size = some n → size.toNat ≤ n ∧ n ≤ MAX_BUCKET_SIZE

/-- The process, with this allocator. -/
def Memory.env (m : Memory) (now : Time) : Env where
  now := now
  reserve := fun size => (reserveMemory m size).1.map Bucket.partition
  info := populateNfoResponse m
  fits := fun size n h => by
    obtain ⟨b, hb, rfl⟩ := Option.map_eq_some_iff.mp h
    exact reserveMemory_fits hb

/-- Memory is never refused but for its size. -/
def Env.Grants (env : Env) : Prop :=
  ∀ size, size.toNat ≤ MAX_BUCKET_SIZE → (env.reserve size).isSome

theorem env_initMemory_grants (main_memory : ℕ) (now : Time) :
    (Memory.env (initMemory main_memory) now).Grants := by
  intro size h
  rw [Memory.env, Option.isSome_map]
  exact reserveMemory_initMemory main_memory h

end Cik

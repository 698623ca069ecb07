import Cik.Source.Memory

/-!
# Where blocks lie

Whatever is reserved and released, the buckets that are live and those on the free
lists never overlap, headers included; all of them lie behind the partitions and hash
maps and before the end of the region, and their data is aligned. A new bucket is put
where the cursor is, before which all others end (`Memory.Sound.push`); a bucket that
goes to a free list or comes from it stays where it is, and only the list it is on
changes (`perm_popFree`, `perm_pushFree`).
-/

namespace Cik

/-- Where the header of a bucket begins. -/
def Bucket.header (b : Bucket) : ℕ := b.data - padded sizeofBucket

/-- Two buckets with their headers do not overlap. -/
def Bucket.Apart (b c : Bucket) : Prop :=
  b.data + b.partition ≤ c.header ∨ c.data + c.partition ≤ b.header

theorem Bucket.Apart.symm {b c : Bucket} (h : b.Apart c) : c.Apart b := Or.symm h

/-- Where a bucket may lie. -/
structure Bucket.Placed (m : Memory) (b : Bucket) : Prop where
  /-- Its data is aligned. -/
  aligned : b.data % alignofMaxAlign = 0
  /-- Its header lies behind what `init_memory` took. -/
  low : m.main_memory + totalSystemSize ≤ b.header
  /-- It ends in the region. -/
  high : b.data + b.partition ≤ m.main_memory + MAX_TOTAL_MEMORY
  /-- It ends before the cursor. -/
  used : b.data + b.partition ≤ m.memory_cursor
  /-- Its partition is one of those there are. -/
  partition : b.partition ∈ partitionSizes

namespace Memory

/-- The buckets on the free lists. -/
def freeBuckets (m : Memory) : List Bucket := m.partitions.flatMap Partition.free_buckets

/-- What holds of the buckets, of which those of `live` are live. -/
structure Sound (m : Memory) (live : List Bucket) : Prop where
  /-- The cursor is aligned. -/
  cursor : m.memory_cursor % alignofMaxAlign = 0
  /-- It lies behind what `init_memory` took. -/
  low : m.main_memory + totalSystemSize ≤ m.memory_cursor
  /-- The buckets lie where they may. -/
  placed : ∀ b ∈ live ++ m.freeBuckets, b.Placed m
  /-- They do not overlap. -/
  apart : (live ++ m.freeBuckets).Pairwise Bucket.Apart

variable {m m' : Memory} {live live' : List Bucket} {p : Partition} {b : Bucket}

/-- Only which buckets there are matters, not which list they are on, and the cursor may move on. -/
theorem Sound.mono (h : m.Sound live) (hm : m'.main_memory = m.main_memory)
    (hc : m.memory_cursor ≤ m'.memory_cursor) (ha : m'.memory_cursor % alignofMaxAlign = 0)
    (hp : (live ++ m.freeBuckets).Perm (live' ++ m'.freeBuckets)) :
    m'.Sound live' where
  cursor := ha
  low := by
    rw [hm]
    exact Nat.le_trans h.low hc
  placed := by
    intro b hb
    obtain ⟨h₁, h₂, h₃, h₄, h₅⟩ := h.placed b (hp.mem_iff.mpr hb)
    exact ⟨h₁, by rwa [hm], by rwa [hm], Nat.le_trans h₄ hc, h₅⟩
  apart := (hp.pairwise_iff fun h => Bucket.Apart.symm h).mp h.apart

theorem Sound.perm (h : m.Sound live) (hm : m'.main_memory = m.main_memory)
    (hc : m'.memory_cursor = m.memory_cursor)
    (hp : (live ++ m.freeBuckets).Perm (live' ++ m'.freeBuckets)) : m'.Sound live' :=
  h.mono hm (Nat.le_of_eq hc.symm) (hc ▸ h.cursor) hp

/-! ### The partitions -/

theorem nodup_partitionSizes : partitionSizes.Nodup := by
  rw [partitionSizes_eq]
  decide

theorem modify_partitions {size : ℕ} {f : Partition → Partition} {hf : ∀ p, (f p).size = p.size} :
    (m.modify size f hf).partitions = m.partitions.map fun p => if p.size = size then f p else p :=
  rfl

/-- Changing a partition leaves the others. -/
theorem partitions_modify {f : Partition → Partition} (hf : ∀ p, (f p).size = p.size)
    (hp : p ∈ m.partitions) :
    ∃ l₁ l₂, m.partitions = l₁ ++ p :: l₂ ∧
      (m.modify p.size f hf).partitions = l₁ ++ f p :: l₂ := by
  obtain ⟨l₁, l₂, hl⟩ := List.append_of_mem hp
  have hnd : (m.partitions.map Partition.size).Nodup := m.sizes_eq ▸ nodup_partitionSizes
  rw [hl, List.map_append, List.map_cons, List.nodup_append] at hnd
  obtain ⟨-, hnd₂, hne⟩ := hnd
  have hsame (l : List Partition) (h : ∀ q ∈ l, q.size ≠ p.size) :
      (l.map fun q => if q.size = p.size then f q else q) = l := by
    rw [List.map_congr_left fun q hq => if_neg (h q hq), List.map_id']
  refine ⟨l₁, l₂, hl, ?_⟩
  rw [modify_partitions, hl, List.map_append, List.map_cons, if_pos rfl, hsame l₁, hsame l₂]
  · intro q hq he
    exact (List.nodup_cons.mp hnd₂).1 (he ▸ List.mem_map_of_mem hq)
  · intro q hq
    exact hne _ (List.mem_map_of_mem hq) _ List.mem_cons_self

/-- The first bucket of a free list is taken off it. -/
theorem perm_popFree (hp : p ∈ m.partitions) {rest : List Bucket}
    (hf : p.free_buckets = b :: rest) :
    m.freeBuckets.Perm (b :: (m.modify p.size Partition.popFree fun _ => rfl).freeBuckets) := by
  obtain ⟨l₁, l₂, h₁, h₂⟩ := @partitions_modify m p Partition.popFree (fun _ => rfl) hp
  have hpop : p.popFree.free_buckets = rest := congrArg List.tail hf
  rw [freeBuckets, freeBuckets, h₁, h₂, List.flatMap_append, List.flatMap_append, List.flatMap_cons,
    List.flatMap_cons, hf, hpop]
  exact List.perm_middle

/-- A bucket is put on the free list of its partition. -/
theorem perm_pushFree (hb : b.partition ∈ partitionSizes) :
    (releaseMemory m b).freeBuckets.Perm (b :: m.freeBuckets) := by
  rw [← m.sizes_eq] at hb
  obtain ⟨p, hp, hs⟩ := List.mem_map.mp hb
  have hf (q : Partition) : (Partition.pushFree b q).size = q.size := by
    unfold Partition.pushFree
    split_ifs <;> rfl
  obtain ⟨l₁, l₂, h₁, h₂⟩ := partitions_modify hf hp
  have hrel : (releaseMemory m b).partitions = l₁ ++ Partition.pushFree b p :: l₂ := by
    rw [← h₂, releaseMemory]
    simp only [hs]
  have hpush : (Partition.pushFree b p).free_buckets = b :: p.free_buckets := by
    rw [Partition.pushFree, dif_pos hs.symm]
  rw [freeBuckets, freeBuckets, h₁, hrel, List.flatMap_append, List.flatMap_append,
    List.flatMap_cons, List.flatMap_cons, hpush]
  exact List.perm_middle

/-- A bucket that is handed out anew is on no free list. -/
theorem freeBuckets_addUsed (m : Memory) (size : ℕ) :
    (m.modify size Partition.addUsed fun _ => rfl).freeBuckets = m.freeBuckets := by
  have hmap : (m.modify size Partition.addUsed fun _ => rfl).partitions =
      m.partitions.map fun p => if p.size = size then p.addUsed else p := rfl
  rw [freeBuckets, freeBuckets, hmap, List.flatMap_map]
  refine List.flatMap_congr fun p _ => ?_
  split_ifs <;> rfl

/-! ### The operations -/

/-- The allocator with its cursor moved. -/
def bump (m : Memory) (size : ℕ) : Memory := { m with memory_cursor := m.memory_cursor + size }

/-- What a bucket of a partition takes up. -/
def bucketSize (size : ℕ) : ℕ := padded sizeofBucket + padded size

/-- What a reservation does: nothing if it is too big for any partition; otherwise, with
the smallest partition it fits into, it takes the first free bucket, or if there is none a
new one, and fails if there is no room, where the cursor has moved on all the same. -/
theorem reserveMemory_cases (m : Memory) (size : UInt32) :
    ((∀ p ∈ m.partitions, ¬ size.toNat ≤ p.size) ∧ reserveMemory m size = (none, m)) ∨
      ∃ p, m.partitions.find? (fun p => size.toNat ≤ p.size) = some p ∧
        ((∃ b rest, p.free_buckets = b :: rest ∧
            reserveMemory m size = (some b, m.modify p.size Partition.popFree fun _ => rfl)) ∨
          (p.free_buckets = [] ∧
            m.memory_cursor + bucketSize p.size ≤ m.main_memory + MAX_TOTAL_MEMORY ∧
            reserveMemory m size = (some ⟨m.memory_cursor + padded sizeofBucket, p.size⟩,
              (m.bump (bucketSize p.size)).modify p.size Partition.addUsed fun _ => rfl)) ∨
          (p.free_buckets = [] ∧
            m.main_memory + MAX_TOTAL_MEMORY < m.memory_cursor + bucketSize p.size ∧
            reserveMemory m size = (none, m.bump (bucketSize p.size)))) := by
  unfold reserveMemory
  cases hf : m.partitions.find? fun p => size.toNat ≤ p.size with
  | none => exact Or.inl ⟨fun p hp => by simpa using List.find?_eq_none.mp hf p hp, rfl⟩
  | some p =>
    refine Or.inr ⟨p, rfl, ?_⟩
    simp only
    cases hl : p.free_buckets with
    | cons b rest => exact Or.inl ⟨b, rest, rfl, rfl⟩
    | nil =>
      refine Or.inr ?_
      by_cases hfull : m.main_memory + MAX_TOTAL_MEMORY < m.memory_cursor + bucketSize p.size
      · have hpush : pushMemory m (bucketSize p.size) = (none, m.bump (bucketSize p.size)) :=
          if_pos hfull
        refine Or.inr ⟨rfl, hfull, ?_⟩
        show newBucket p (pushMemory m (bucketSize p.size)) = _
        rw [hpush]
        rfl
      · have hpush :
            pushMemory m (bucketSize p.size) = (some m.memory_cursor, m.bump (bucketSize p.size)) :=
          if_neg hfull
        refine Or.inl ⟨rfl, Nat.not_lt.mp hfull, ?_⟩
        show newBucket p (pushMemory m (bucketSize p.size)) = _
        rw [hpush]
        rfl

theorem padded_mod (s : ℕ) : padded s % alignofMaxAlign = 0 := by
  have h16 : alignofMaxAlign = 16 := rfl
  rw [padded, padding, h16]
  omega

theorem freeBuckets_init (main_memory : ℕ) : (initMemory main_memory).freeBuckets = [] := by
  rw [freeBuckets, initMemory, List.flatMap_map]
  exact List.flatMap_eq_nil_iff.mpr fun _ _ => rfl

theorem sound_init (main_memory : ℕ) (ha : main_memory % alignofMaxAlign = 0) :
    (initMemory main_memory).Sound [] := by
  have hfree := freeBuckets_init main_memory
  have hc : (initMemory main_memory).memory_cursor = main_memory + totalSystemSize := rfl
  refine ⟨?_, ?_, ?_, ?_⟩
  · rw [hc, Nat.add_mod, ha, totalSystemSize_eq]
    rfl
  · exact Nat.le_of_eq hc.symm
  · simp [hfree]
  · simp [hfree]

theorem bucketSize_mod (size : ℕ) : bucketSize size % alignofMaxAlign = 0 := by
  rw [bucketSize, Nat.add_mod, padded_mod, padded_mod]
  rfl

/-- When the cursor moves on, the buckets stay where they are. -/
theorem Sound.bump (h : m.Sound live) (size : ℕ) : (m.bump (bucketSize size)).Sound live := by
  refine h.mono rfl (Nat.le_add_right _ _) ?_ (List.Perm.refl _)
  rw [Memory.bump, Nat.add_mod, h.cursor, bucketSize_mod]
  rfl

/-- A new bucket begins where the others end. -/
theorem Sound.push (h : m.Sound live) (hp : p ∈ m.partitions)
    (hfit : m.memory_cursor + bucketSize p.size ≤ m.main_memory + MAX_TOTAL_MEMORY) :
    (m.bump (bucketSize p.size)).Sound
      (⟨m.memory_cursor + padded sizeofBucket, p.size⟩ :: live) := by
  have hrest := h.bump p.size
  have hle : p.size ≤ padded p.size := Nat.le_add_right _ _
  have hheader :
      (⟨m.memory_cursor + padded sizeofBucket, p.size⟩ : Bucket).header = m.memory_cursor :=
    Nat.add_sub_cancel _ _
  have hend :
      m.memory_cursor + padded sizeofBucket + p.size ≤ m.memory_cursor + bucketSize p.size := by
    rw [bucketSize]
    omega
  refine ⟨hrest.cursor, hrest.low, ?_, ?_⟩
  · intro b hmem
    rcases List.mem_cons.mp hmem with rfl | hmem
    · refine ⟨?_, ?_, ?_, hend, ?_⟩
      · rw [Nat.add_mod, h.cursor, padded_mod]
        rfl
      · rw [hheader]
        exact h.low
      · exact Nat.le_trans hend hfit
      · rw [← m.sizes_eq]
        exact List.mem_map_of_mem hp
    · exact hrest.placed b hmem
  · refine List.pairwise_cons.mpr ⟨fun c hmem => Or.inr ?_, hrest.apart⟩
    rw [hheader]
    exact (h.placed c hmem).used

theorem Sound.reserve (h : m.Sound live) {size : UInt32} :
    (∀ b m', reserveMemory m size = (some b, m') → m'.Sound (b :: live)) ∧
      ∀ m', reserveMemory m size = (none, m') → m'.Sound live := by
  obtain ⟨-, he⟩ | ⟨p, hf, ⟨b, rest, hl, he⟩ | ⟨-, hfit, he⟩ | ⟨-, -, he⟩⟩ :=
    reserveMemory_cases m size
  · rw [he]
    refine ⟨nofun, fun m' hr => ?_⟩
    obtain rfl := (Prod.mk.inj hr).2
    exact h
  · have hp := List.mem_of_find?_eq_some hf
    rw [he]
    refine ⟨fun b' m' hr => ?_, nofun⟩
    obtain ⟨hb, rfl⟩ := Prod.mk.inj hr
    obtain rfl := Option.some.inj hb
    exact h.perm rfl rfl (((perm_popFree hp hl).append_left live).trans List.perm_middle)
  · have hp := List.mem_of_find?_eq_some hf
    rw [he]
    refine ⟨fun b' m' hr => ?_, nofun⟩
    obtain ⟨hb, rfl⟩ := Prod.mk.inj hr
    obtain rfl := Option.some.inj hb
    refine (h.push hp hfit).perm rfl rfl ?_
    rw [freeBuckets_addUsed]
  · rw [he]
    refine ⟨nofun, fun m' hr => ?_⟩
    obtain rfl := (Prod.mk.inj hr).2
    exact h.bump p.size

theorem Sound.release (h : m.Sound live) (hb : b ∈ live) :
    (releaseMemory m b).Sound (live.erase b) := by
  have hpart := (h.placed b (List.mem_append_left _ hb)).partition
  refine h.perm rfl rfl ?_
  have hfree := (perm_pushFree (m := m) hpart).symm.append_left (live.erase b)
  exact ((List.perm_cons_erase hb).append_right _).trans (List.perm_middle.symm.trans hfree)

/-! ### Runs of the allocator -/

theorem reserveMemory_main_memory (m : Memory) (size : UInt32) :
    (reserveMemory m size).2.main_memory = m.main_memory := by
  obtain ⟨-, he⟩ | ⟨p, -, ⟨b, rest, -, he⟩ | ⟨-, -, he⟩ | ⟨-, -, he⟩⟩ := reserveMemory_cases m size
  · rw [he]
  · rw [he]
    rfl
  · rw [he]
    rfl
  · rw [he]
    rfl

theorem Reach.sound (h : m.Reach live) (ha : m.main_memory % alignofMaxAlign = 0) :
    m.Sound live := by
  induction h with
  | init main_memory => exact sound_init main_memory ha
  | @reserve m m' live size b _ he ih =>
    have hm := reserveMemory_main_memory m size
    rw [he] at hm
    exact (ih (hm ▸ ha)).reserve.1 _ _ he
  | @refuse m m' live size _ he ih =>
    have hm := reserveMemory_main_memory m size
    rw [he] at hm
    exact (ih (hm ▸ ha)).reserve.2 _ he
  | release _ hb ih => exact (ih ha).release hb

end Memory

/-- A block comes from the smallest partition that fits. -/
theorem reserveMemory_smallest {m m' : Memory} {size : UInt32} {b : Bucket}
    (h : reserveMemory m size = (some b, m')) {n : ℕ} (hn : n ∈ partitionSizes)
    (hs : size.toNat ≤ n) : b.partition ≤ n := by
  have hsorted : (m.partitions.map Partition.size).Pairwise (· < ·) := by
    rw [m.sizes_eq, partitionSizes_eq]
    decide
  rw [← m.sizes_eq] at hn
  obtain ⟨q, hq, rfl⟩ := List.mem_map.mp hn
  obtain ⟨hnone, -⟩ | ⟨p, hf, hcases⟩ := Memory.reserveMemory_cases m size
  · exact absurd hs (hnone q hq)
  have hb : b.partition = p.size := by
    obtain ⟨b', rest, hl, he⟩ | ⟨-, -, he⟩ | ⟨-, -, he⟩ := hcases
    · obtain rfl := Option.some.inj (Prod.mk.inj (he.symm.trans h)).1
      exact p.free_ok _ (hl ▸ List.mem_cons_self)
    · rw [← Option.some.inj (Prod.mk.inj (he.symm.trans h)).1]
    · cases (Prod.mk.inj (he.symm.trans h)).1
  obtain ⟨-, l₁, l₂, hl, hbefore⟩ := List.find?_eq_some_iff_append.mp hf
  rw [hl, List.map_append, List.map_cons, List.pairwise_append] at hsorted
  obtain ⟨-, hafter, -⟩ := hsorted
  rw [hl] at hq
  rcases List.mem_append.mp hq with hq | hq
  · exact absurd hs (by simpa using hbefore q hq)
  · rcases List.mem_cons.mp hq with rfl | hq
    · exact Nat.le_of_eq hb
    · rw [hb]
      exact Nat.le_of_lt ((List.pairwise_cons.mp hafter).1 _ (List.mem_map_of_mem hq))

/-- Blocks are aligned, lie in their part of the region and do not overlap one another nor
the free buckets, whatever was reserved and released; and a reservation adds one that is
big enough, from the smallest partition that fits. -/
theorem blocks_safe {m : Memory} {live : List Bucket} (h : m.Reach live)
    (ha : m.main_memory % alignofMaxAlign = 0) (size : UInt32) :
    (∀ b ∈ live, b.Placed m) ∧ (live ++ m.freeBuckets).Pairwise Bucket.Apart ∧
      (∀ b m', reserveMemory m size = (some b, m') →
        size.toNat ≤ b.partition ∧ (∀ n ∈ partitionSizes, size.toNat ≤ n → b.partition ≤ n) ∧
        b.Placed m' ∧
          ∀ c ∈ live ++ m'.freeBuckets, b.Apart c) ∧
      (MAX_BUCKET_SIZE < size.toNat → (reserveMemory m size).1 = none) := by
  have hs := h.sound ha
  refine ⟨fun b hb => hs.placed b (List.mem_append_left _ hb), hs.apart, fun b m' he => ?_,
    reserveMemory_eq_none⟩
  have hs' := hs.reserve.1 b m' he
  have hfits := (reserveMemory_fits (congrArg Prod.fst he)).1
  have hplaced := hs'.placed b (List.mem_append_left _ List.mem_cons_self)
  have hapart := hs'.apart
  rw [List.cons_append, List.pairwise_cons] at hapart
  exact ⟨hfits, fun n => reserveMemory_smallest he, hplaced, hapart.1⟩

/-- The first block of 256 bytes. -/
def firstBlock : Bucket := ⟨71761776, 256⟩

/-- A block of 512 bytes behind it. -/
def secondBlock : Bucket := ⟨71762064, 512⟩

/-- The allocator when both were reserved and the first was released. -/
def heldAndFree : Memory :=
  releaseMemory (reserveMemory (reserveMemory (initMemory 0) 100).2 300).2 firstBlock

theorem reach_heldAndFree : heldAndFree.Reach [secondBlock] := by
  have hfirst :
      reserveMemory (initMemory 0) 100 = (some firstBlock, (reserveMemory (initMemory 0) 100).2) :=
    Prod.ext rfl rfl
  have hsecond : reserveMemory (reserveMemory (initMemory 0) 100).2 300 =
      (some secondBlock, (reserveMemory (reserveMemory (initMemory 0) 100).2 300).2) :=
      Prod.ext rfl rfl
  exact (((Memory.Reach.init 0).reserve hfirst).reserve hsecond).release
    (List.mem_cons_of_mem secondBlock List.mem_cons_self)

theorem freeBuckets_heldAndFree : heldAndFree.freeBuckets = [firstBlock] := rfl

/-- A block of 100 bytes is the one that is free, and one of 600 bytes lies apart from it and from
the one that is live. -/
theorem blocks_safe_heldAndFree : secondBlock.Placed heldAndFree ∧ secondBlock.Apart firstBlock ∧
    (∃ m', reserveMemory heldAndFree 100 = (some firstBlock, m') ∧ firstBlock.Placed m' ∧
      firstBlock.Apart secondBlock) ∧
    ∃ b m', reserveMemory heldAndFree 600 = (some b, m') ∧ 600 ≤ b.partition ∧ b.Placed m' ∧
      b.Apart secondBlock ∧ b.Apart firstBlock := by
  obtain ⟨hplaced, hapart, h₁, -⟩ := blocks_safe reach_heldAndFree rfl 100
  obtain ⟨-, -, h₂, -⟩ := blocks_safe reach_heldAndFree rfl 600
  have hr₁ : reserveMemory heldAndFree 100 = (some firstBlock, (reserveMemory heldAndFree 100).2) :=
    Prod.ext rfl rfl
  have hr₂ :
      reserveMemory heldAndFree 600 = (some ⟨71762608, 1024⟩, (reserveMemory heldAndFree 600).2) :=
    Prod.ext rfl rfl
  obtain ⟨-, -, hplaced₁, hapart₁⟩ := h₁ _ _ hr₁
  obtain ⟨hfits, -, hplaced₂, hapart₂⟩ := h₂ _ _ hr₂
  rw [freeBuckets_heldAndFree] at hapart
  refine ⟨hplaced _ List.mem_cons_self, (List.pairwise_cons.mp hapart).1 _ List.mem_cons_self,
    ⟨_, hr₁, hplaced₁, hapart₁ _ List.mem_cons_self⟩, _, _, hr₂, hfits, hplaced₂,
    hapart₂ _ List.mem_cons_self, hapart₂ _ ?_⟩
  exact List.mem_cons_of_mem _ List.mem_cons_self

end Cik

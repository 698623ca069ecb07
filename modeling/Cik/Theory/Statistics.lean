import Cik.Theory.Allocation
import Mathlib.Algebra.BigOperators.Group.List.Basic
import Mathlib.Algebra.Order.BigOperators.Group.List
import Mathlib.Data.List.Nodup

/-!
# The allocator's counters

Each partition counts its live buckets and the buckets on its free list, and counts them
right. What the buckets take up with their headers was once handed out by the cursor, so
it fits into the region; hence the sums over the partitions in `populate_nfo_response` do
not wrap, and say how many bytes are in use and free (`statistics_exact`).
-/

namespace Cik

/-- What buckets take up, headers and padding included. -/
def footprint (l : List Bucket) : ℕ := (l.map fun b => padded sizeofBucket + padded b.partition).sum

theorem footprint_cons (b : Bucket) (l : List Bucket) :
    footprint (b :: l) = padded sizeofBucket + padded b.partition + footprint l := by
  rw [footprint, List.map_cons, List.sum_cons, footprint]

theorem footprint_perm {l l' : List Bucket} (h : l.Perm l') : footprint l = footprint l' :=
  (h.map _).sum_eq

theorem footprint_append (l l' : List Bucket) :
    footprint (l ++ l') = footprint l + footprint l' := by
  rw [footprint, List.map_append, List.sum_append, footprint, footprint]

/-- The bytes that buckets can hold. -/
def capacity (l : List Bucket) : ℕ := (l.map Bucket.partition).sum

theorem capacity_append (l l' : List Bucket) : capacity (l ++ l') = capacity l + capacity l' := by
  rw [capacity, List.map_append, List.sum_append, capacity, capacity]

theorem capacity_le_footprint (l : List Bucket) : capacity l + 32 * l.length ≤ footprint l := by
  have hb : padded sizeofBucket = 32 := rfl
  induction l with
  | nil => exact Nat.le_refl _
  | cons b l ih =>
    have hp : b.partition ≤ padded b.partition := Nat.le_add_right _ _
    rw [footprint_cons, capacity, List.map_cons, List.sum_cons, ← capacity, List.length_cons]
    omega

/-- How many of the buckets are of a partition. -/
def countOf (l : List Bucket) (size : ℕ) : ℕ := l.countP fun b => b.partition = size

theorem countOf_cons_self {b : Bucket} {l : List Bucket} :
    countOf (b :: l) b.partition = countOf l b.partition + 1 :=
  List.countP_cons_of_pos (decide_eq_true rfl)

theorem countOf_cons_of_ne {b : Bucket} {l : List Bucket} {size : ℕ} (h : b.partition ≠ size) :
    countOf (b :: l) size = countOf l size := List.countP_cons_of_neg (by simpa using h)

theorem countOf_perm {l l' : List Bucket} (h : l.Perm l') (size : ℕ) :
    countOf l size = countOf l' size :=
  h.countP_eq _

namespace Memory

variable {m m' : Memory} {live : List Bucket} {p : Partition} {b : Bucket}

/-- What holds of the counters of a partition. -/
structure Counts (live : List Bucket) (p : Partition) : Prop where
  /-- The buckets in use. -/
  used : p.num_used = UInt32.ofNat (countOf live p.size)
  /-- The free buckets. -/
  free : p.num_free = UInt32.ofNat p.free_buckets.length

/-- What holds of the counters, and of the room that the buckets take up. -/
structure Counted (m : Memory) (live : List Bucket) : Prop where
  /-- The counters are right. -/
  counts : ∀ p ∈ m.partitions, Counts live p
  /-- The live buckets are of partitions there are. -/
  known : ∀ b ∈ live, b.partition ∈ partitionSizes
  /-- The buckets were handed out before the cursor. -/
  cursor : m.main_memory + totalSystemSize + footprint (live ++ m.freeBuckets) ≤ m.memory_cursor
  /-- They fit into the region. -/
  room : totalSystemSize + footprint (live ++ m.freeBuckets) ≤ MAX_TOTAL_MEMORY

/-- What holds of a partition that is changed and held of the others holds of all. -/
theorem forall_modify {P : Partition → Prop} {f : Partition → Partition}
    (hf : ∀ p, (f p).size = p.size) (hp : p ∈ m.partitions) (hfp : P (f p))
    (hP : ∀ q ∈ m.partitions, q.size ≠ p.size → P q) :
    ∀ q ∈ (m.modify p.size f hf).partitions, P q := by
  have hnd : (m.partitions.map Partition.size).Nodup := m.sizes_eq ▸ nodup_partitionSizes
  intro q hq
  rw [modify_partitions, List.mem_map] at hq
  obtain ⟨q', hq', rfl⟩ := hq
  split_ifs with hs
  · obtain rfl : q' = p := List.inj_on_of_nodup_map hnd hq' hp hs
    exact hfp
  · exact hP q' hq' hs

theorem counted_init (main_memory : ℕ) : (initMemory main_memory).Counted [] := by
  have hfree := freeBuckets_init main_memory
  have hnil : footprint ([] ++ []) = 0 := rfl
  have hmax : 71761744 + 0 ≤ MAX_TOTAL_MEMORY := by
    rw [MAX_TOTAL_MEMORY]
    omega
  refine ⟨fun p hp => ?_, nofun, ?_, ?_⟩
  · obtain ⟨size, -, rfl⟩ := List.mem_map.mp hp
    exact ⟨rfl, rfl⟩
  · rw [hfree, hnil, Nat.add_zero]
    exact Nat.le_of_eq rfl
  · rw [hfree, hnil, totalSystemSize_eq]
    exact hmax

/-- A bucket comes from the free list. -/
theorem Counted.pop (h : m.Counted live) (hp : p ∈ m.partitions) {rest : List Bucket}
    (hf : p.free_buckets = b :: rest) :
    (m.modify p.size Partition.popFree fun _ => rfl).Counted (b :: live) := by
  have hb : b.partition = p.size := p.free_ok b (by rw [hf]; exact List.mem_cons_self)
  have hperm := ((perm_popFree hp hf).append_left live).trans List.perm_middle
  refine ⟨forall_modify _ hp ⟨?_, ?_⟩ fun q hq hne => ⟨?_, (h.counts q hq).free⟩, ?_, ?_, ?_⟩
  · show p.num_used + 1 = UInt32.ofNat (countOf (b :: live) p.size)
    rw [← hb, countOf_cons_self, hb, (h.counts p hp).used, UInt32.ofNat_add]
    rfl
  · show p.num_free - 1 = UInt32.ofNat p.free_buckets.tail.length
    rw [(h.counts p hp).free, hf, List.length_cons, UInt32.ofNat_add]
    exact UInt32.add_sub_cancel ..
  · rw [countOf_cons_of_ne (by rw [hb]; exact hne.symm), (h.counts q hq).used]
  · intro c hc
    rcases List.mem_cons.mp hc with rfl | hc
    · rw [hb, ← m.sizes_eq]
      exact List.mem_map_of_mem hp
    · exact h.known c hc
  · rw [List.cons_append, ← footprint_perm hperm]
    exact h.cursor
  · rw [List.cons_append, ← footprint_perm hperm]
    exact h.room

/-- A bucket is made where the cursor is. -/
theorem Counted.push (h : m.Counted live) (hp : p ∈ m.partitions)
    (hfit : m.memory_cursor + bucketSize p.size ≤ m.main_memory + MAX_TOTAL_MEMORY) :
    ((m.bump (bucketSize p.size)).modify p.size Partition.addUsed fun _ => rfl).Counted
      (⟨m.memory_cursor + padded sizeofBucket, p.size⟩ :: live) := by
  have hfoot : footprint ((⟨m.memory_cursor + padded sizeofBucket, p.size⟩ :: live) ++
      ((m.bump (bucketSize p.size)).modify p.size Partition.addUsed fun _ => rfl).freeBuckets) =
        bucketSize p.size + footprint (live ++ m.freeBuckets) := by
    rw [freeBuckets_addUsed, List.cons_append, footprint_cons]
    rfl
  have hcursor := h.cursor
  refine ⟨forall_modify (m := m.bump (bucketSize p.size)) _ hp
      ⟨?_, (h.counts p hp).free⟩ fun q hq hne =>
    ⟨?_, (h.counts q hq).free⟩, ?_, ?_, ?_⟩
  · have hcount : countOf (⟨m.memory_cursor + padded sizeofBucket, p.size⟩ :: live) p.size =
        countOf live p.size + 1 :=
      countOf_cons_self
    show p.num_used + 1 = UInt32.ofNat (countOf _ p.size)
    rw [hcount, (h.counts p hp).used, UInt32.ofNat_add]
    rfl
  · rw [countOf_cons_of_ne hne.symm, (h.counts q hq).used]
  · intro c hc
    rcases List.mem_cons.mp hc with rfl | hc
    · rw [← m.sizes_eq]
      exact List.mem_map_of_mem hp
    · exact h.known c hc
  · rw [hfoot]
    show m.main_memory + totalSystemSize + _ ≤ m.memory_cursor + bucketSize p.size
    omega
  · rw [hfoot]
    omega

/-- The cursor moves on. -/
theorem Counted.bump (h : m.Counted live) (size : ℕ) : (m.bump size).Counted live :=
  ⟨h.counts, h.known, Nat.le_trans h.cursor (Nat.le_add_right _ _), h.room⟩

/-- A live bucket is released. -/
theorem Counted.release (h : m.Counted live) (hb : b ∈ live) :
    (releaseMemory m b).Counted (live.erase b) := by
  have hpart := h.known b hb
  have hperm : (live ++ m.freeBuckets).Perm (live.erase b ++ (releaseMemory m b).freeBuckets) :=
    (((List.perm_cons_erase hb).append_right _).trans List.perm_middle.symm).trans
      ((perm_pushFree (m := m) hpart).symm.append_left (live.erase b))
  rw [← m.sizes_eq] at hpart
  obtain ⟨p, hp, hs⟩ := List.mem_map.mp hpart
  have hcount (size : ℕ) : countOf live size = countOf (b :: live.erase b) size :=
    countOf_perm (List.perm_cons_erase hb) size
  have hcounts : ∀ q ∈ (releaseMemory m b).partitions, Counts (live.erase b) q := by
    have hrel : (releaseMemory m b).partitions = (m.modify p.size (Partition.pushFree b) fun q => by
        unfold Partition.pushFree
        split_ifs <;> rfl).partitions := by rw [hs]; rfl
    rw [hrel]
    refine forall_modify _ hp ?_ fun q hq hne => ⟨?_, (h.counts q hq).free⟩
    · rw [Partition.pushFree, dif_pos hs.symm]
      refine ⟨?_, ?_⟩
      · show p.num_used - 1 = UInt32.ofNat (countOf (live.erase b) p.size)
        rw [(h.counts p hp).used, hcount, hs, countOf_cons_self, UInt32.ofNat_add]
        exact UInt32.add_sub_cancel ..
      · show p.num_free + 1 = UInt32.ofNat (b :: p.free_buckets).length
        rw [(h.counts p hp).free, List.length_cons, UInt32.ofNat_add]
        rfl
    · rw [(h.counts q hq).used, hcount, countOf_cons_of_ne (by rw [← hs]; exact hne.symm)]
  refine ⟨hcounts, fun c hc => h.known c (List.mem_of_mem_erase hc), ?_, ?_⟩
  · rw [← footprint_perm hperm]
    exact h.cursor
  · rw [← footprint_perm hperm]
    exact h.room

theorem Counted.reserve (h : m.Counted live) {size : UInt32} :
    (∀ b m', reserveMemory m size = (some b, m') → m'.Counted (b :: live)) ∧
      ∀ m', reserveMemory m size = (none, m') → m'.Counted live := by
  rcases reserveMemory_cases m size
    with ⟨-, hr⟩ | ⟨p, hf, ⟨b, rest, hl, hr⟩ | ⟨-, hfit, hr⟩ | ⟨-, -, hr⟩⟩
  · rw [hr]
    exact ⟨fun _ _ => nofun, fun _ he => (Prod.mk.inj he).2 ▸ h⟩
  · rw [hr]
    refine ⟨fun b' m' he => ?_, fun _ => nofun⟩
    cases he
    exact h.pop (List.mem_of_find?_eq_some hf) hl
  · rw [hr]
    refine ⟨fun b' m' he => ?_, fun _ => nofun⟩
    cases he
    exact h.push (List.mem_of_find?_eq_some hf) hfit
  · rw [hr]
    exact ⟨fun _ _ => nofun, fun _ he => (Prod.mk.inj he).2 ▸ h.bump _⟩

theorem Reach.counted (h : m.Reach live) : m.Counted live := by
  induction h with
  | init main_memory => exact counted_init main_memory
  | reserve _ he ih => exact ih.reserve.1 _ _ he
  | refuse _ he ih => exact ih.reserve.2 _ he
  | release _ hb ih => exact ih.release hb

/-! ### The sums -/

/-- One more bucket in one of the sums. -/
theorem sum_countOf_cons {sizes : List ℕ} (hnd : sizes.Nodup) (hb : b.partition ∈ sizes) :
    (sizes.map fun size => size * countOf (b :: live) size).sum =
      b.partition + (sizes.map fun size => size * countOf live size).sum := by
  induction sizes with
  | nil => cases hb
  | cons size sizes ih =>
    obtain ⟨hnot, hnd⟩ := List.nodup_cons.mp hnd
    rw [List.map_cons, List.sum_cons, List.map_cons, List.sum_cons]
    by_cases hs : b.partition = size
    · subst hs
      have hrest : (sizes.map fun size => size * countOf (b :: live) size) =
          sizes.map fun size => size * countOf live size :=
        List.map_congr_left fun size hsize => by rw [countOf_cons_of_ne fun he => hnot (he ▸ hsize)]
      rw [hrest, countOf_cons_self, Nat.mul_add_one]
      omega
    · rw [countOf_cons_of_ne hs, ih hnd ((List.mem_cons.mp hb).resolve_left hs)]
      omega

/-- The sum over the partitions of what their live buckets hold. -/
theorem sum_countOf {sizes : List ℕ} (hnd : sizes.Nodup) (hlive : ∀ b ∈ live, b.partition ∈ sizes) :
    (sizes.map fun size => size * countOf live size).sum = capacity live := by
  induction live with
  | nil =>
    have hzero : (sizes.map fun size => size * countOf [] size) = sizes.map fun _ => 0 :=
      List.map_congr_left fun _ _ => Nat.mul_zero _
    rw [hzero, List.map_const', List.sum_replicate]
    exact Nat.mul_zero _
  | cons b live ih =>
    rw [sum_countOf_cons hnd (hlive b List.mem_cons_self),
      ih fun c hc => hlive c (List.mem_cons_of_mem b hc), capacity,
      capacity, List.map_cons, List.sum_cons]

theorem capacity_flatMap_freeBuckets (l : List Partition) :
    capacity (l.flatMap Partition.free_buckets) =
    (l.map fun p => p.size * p.free_buckets.length).sum := by
  induction l with
  | nil => rfl
  | cons p l ih =>
    have hp : capacity p.free_buckets = p.size * p.free_buckets.length := by
      rw [capacity, List.map_congr_left p.free_ok, List.map_const', List.sum_replicate]
      exact Nat.mul_comm ..
    rw [List.flatMap_cons, capacity_append, hp, ih, List.map_cons, List.sum_cons]

theorem capacity_freeBuckets (m : Memory) :
    capacity m.freeBuckets = (m.partitions.map fun p => p.size * p.free_buckets.length).sum :=
  capacity_flatMap_freeBuckets m.partitions

/-- No product and no sum wraps when the sizes of the partitions times such counts are added up. -/
def SumFits (m : Memory) (count : Partition → UInt32) : Prop :=
  ∀ l₁ p l₂, m.partitions = l₁ ++ p :: l₂ →
    (l₁.map fun p => p.size * (count p).toNat).sum + p.size * (count p).toNat < 2 ^ 32

/-- A sum that fits is what it should be. -/
theorem toNat_foldl_sum (count : Partition → UInt32) (l : List Partition) (sum : UInt32)
    (h : sum.toNat + (l.map fun p => p.size * (count p).toNat).sum < 2 ^ 32)
    (hsize : ∀ p ∈ l, p.size < 2 ^ 32) :
    (l.foldl (fun sum p => sum + UInt32.ofNat p.size * count p) sum).toNat =
      sum.toNat + (l.map fun p => p.size * (count p).toNat).sum := by
  induction l generalizing sum with
  | nil => rfl
  | cons p l ih =>
    rw [List.map_cons, List.sum_cons] at h
    have hp : (UInt32.ofNat p.size).toNat = p.size :=
      UInt32.toNat_ofNat_of_lt' (hsize p List.mem_cons_self)
    have hstep :
        (sum + UInt32.ofNat p.size * count p).toNat = sum.toNat + p.size * (count p).toNat := by
      rw [UInt32.toNat_add, UInt32.toNat_mul, hp]
      omega
    rw [List.foldl_cons, ih _ (by rw [hstep]; omega) fun q hq =>
      hsize q (List.mem_cons_of_mem p hq), hstep, List.map_cons, List.sum_cons, Nat.add_assoc]

theorem size_lt (hp : p ∈ m.partitions) : p.size < 2 ^ 32 := by
  have hle : p.size ≤ MAX_BUCKET_SIZE :=
    le_of_mem_partitionSizes (m.sizes_eq ▸ List.mem_map_of_mem hp)
  have hmax : MAX_BUCKET_SIZE = 0x800000 := rfl
  omega

theorem sumPartitions_toNat (count : Partition → UInt32)
    (h : (m.partitions.map fun p => p.size * (count p).toNat).sum < 2 ^ 32) :
    (sumPartitions m count).toNat = (m.partitions.map fun p => p.size * (count p).toNat).sum ∧
    m.SumFits count := by
  refine ⟨?_, fun l₁ p l₂ hl => ?_⟩
  · rw [sumPartitions, toNat_foldl_sum count _ 0 (by simpa using h) fun p hp => size_lt hp]
    simp
  · rw [hl, List.map_append, List.map_cons, List.sum_append, List.sum_cons] at h
    omega

/-- The buckets are fewer than a counter can count, and hold less than the region. -/
theorem Counted.bounds (h : m.Counted live) :
    live.length + m.freeBuckets.length < 2 ^ 32 ∧
      capacity live + capacity m.freeBuckets ≤ MAX_TOTAL_MEMORY - totalSystemSize ∧
        MAX_TOTAL_MEMORY - totalSystemSize < 2 ^ 32 := by
  have hroom := h.room
  have hlive := capacity_le_footprint live
  have hfree := capacity_le_footprint m.freeBuckets
  have hmax : MAX_TOTAL_MEMORY < 2 ^ 32 := by
    rw [MAX_TOTAL_MEMORY]
    omega
  rw [footprint_append] at hroom
  omega

theorem Counted.used_toNat (h : m.Counted live) (hp : p ∈ m.partitions) :
    p.num_used.toNat = countOf live p.size := by
  have hle : countOf live p.size ≤ live.length := List.countP_le_length
  have hlt := h.bounds.1
  rw [(h.counts p hp).used]
  exact UInt32.toNat_ofNat_of_lt' (show countOf live p.size < 2 ^ 32 by omega)

theorem Counted.free_toNat (h : m.Counted live) (hp : p ∈ m.partitions) :
    p.num_free.toNat = p.free_buckets.length := by
  have hle : p.free_buckets.length ≤ m.freeBuckets.length := by
    obtain ⟨l₁, l₂, hl⟩ := List.append_of_mem hp
    rw [freeBuckets, hl, List.flatMap_append, List.flatMap_cons, List.length_append,
      List.length_append]
    omega
  have hlt := h.bounds.1
  rw [(h.counts p hp).free]
  exact UInt32.toNat_ofNat_of_lt' (show p.free_buckets.length < 2 ^ 32 by omega)

/-- The counters are the numbers of live and of free buckets, and the sums over them are
the bytes that these can hold: nothing wraps, and they fit into what was reserved. -/
theorem statistics_exact (h : m.Reach live) :
    (∀ p ∈ m.partitions, p.num_used.toNat = countOf live p.size ∧
      p.num_free.toNat = p.free_buckets.length) ∧ m.SumFits Partition.num_used ∧
      m.SumFits Partition.num_free ∧ (populateNfoResponse m).bytes_used.toNat = capacity live ∧
      (populateNfoResponse m).bytes_free.toNat = capacity m.freeBuckets ∧
      (populateNfoResponse m).bytes_used.toNat + (populateNfoResponse m).bytes_free.toNat ≤
        (populateNfoResponse m).bytes_reserved.toNat := by
  have hc := h.counted
  obtain ⟨-, hcap, hmax⟩ := hc.bounds
  have hused : (m.partitions.map fun p => p.size * p.num_used.toNat).sum = capacity live := by
    rw [← sum_countOf nodup_partitionSizes hc.known, ← m.sizes_eq, List.map_map]
    exact congrArg List.sum (List.map_congr_left fun p hp => by rw [hc.used_toNat hp]; rfl)
  have hfree :
      (m.partitions.map fun p => p.size * p.num_free.toNat).sum = capacity m.freeBuckets := by
    rw [capacity_freeBuckets]
    exact congrArg List.sum (List.map_congr_left fun p hp => by rw [hc.free_toNat hp])
  obtain ⟨hu, hufits⟩ := sumPartitions_toNat (m := m) Partition.num_used (by omega)
  obtain ⟨hf, hffits⟩ := sumPartitions_toNat (m := m) Partition.num_free (by omega)
  have hres : (populateNfoResponse m).bytes_reserved.toNat = MAX_TOTAL_MEMORY - totalSystemSize :=
    UInt32.toNat_ofNat_of_lt' hmax
  refine ⟨fun p hp => ⟨hc.used_toNat hp, hc.free_toNat hp⟩, hufits, hffits, hu.trans hused,
    hf.trans hfree, ?_⟩
  rw [hres]
  show (sumPartitions m Partition.num_used).toNat + (sumPartitions m Partition.num_free).toNat ≤ _
  rw [hu, hf, hused, hfree]
  exact hcap

/-- The bytes of a live and of a free block. -/
theorem statistics_exact_heldAndFree : (populateNfoResponse heldAndFree).bytes_used.toNat = 512 ∧
    (populateNfoResponse heldAndFree).bytes_free.toNat = 256 ∧
    512 + 256 ≤ (populateNfoResponse heldAndFree).bytes_reserved.toNat := by
  obtain ⟨-, -, -, hused, hfree, hle⟩ := statistics_exact reach_heldAndFree
  rw [freeBuckets_heldAndFree] at hfree
  rw [hused, hfree] at hle
  exact ⟨hused, hfree, hle⟩

end Memory

end Cik

import Cik.Theory.Allocation

/-!
# Refused reservations

A reservation that is refused for want of room has moved the cursor on, and nothing moves
it back. What it took is lost, so a smaller block that there was room for is refused as
well. It is not seen in later calls only where nothing was left to lose: when no block at
all could have been made (`refusal_unseen_iff`). A reservation too big for any partition
is refused before the cursor is touched.
-/

namespace Cik

namespace Memory

/-- A call of the allocator. -/
inductive Call where
  /-- `reserve_memory`. -/
  | reserve (size : UInt32)
  /-- `release_memory`. -/
  | release (b : Bucket)

/-- The answers to the reservations among the calls. -/
def results (m : Memory) : List Call → List (Option Bucket)
  | [] => []
  | .reserve size :: calls => (reserveMemory m size).1 :: results (reserveMemory m size).2 calls
  | .release b :: calls => results (releaseMemory m b) calls

/-- The allocator after the calls. -/
def after (m : Memory) : List Call → Memory
  | [] => m
  | .reserve size :: calls => after (reserveMemory m size).2 calls
  | .release b :: calls => after (releaseMemory m b) calls

/-- Only live blocks are released. -/
def Permitted (m : Memory) (live : List Bucket) : List Call → Prop
  | [] => True
  | .reserve size :: calls =>
    Permitted (reserveMemory m size).2 ((reserveMemory m size).1.toList ++ live) calls
  | .release b :: calls => b ∈ live ∧ Permitted (releaseMemory m b) (live.erase b) calls

/-- No new block of the smallest partition fits. -/
def Full (m : Memory) : Prop :=
  m.main_memory + MAX_TOTAL_MEMORY < m.memory_cursor + bucketSize MIN_BUCKET_SIZE

variable {m m' : Memory} {live : List Bucket} {p : Partition} {size : UInt32}

theorem padded_mono {s t : ℕ} (h : s ≤ t) : padded s ≤ padded t := by
  have h16 : alignofMaxAlign = 16 := rfl
  rw [padded, padded, padding, padding, h16]
  omega

/-- No block is smaller than one of the smallest partition. -/
theorem bucketSize_min_le (hp : p ∈ m.partitions) :
    bucketSize MIN_BUCKET_SIZE ≤ bucketSize p.size := by
  have hsizes : ∀ size ∈ partitionSizes, MIN_BUCKET_SIZE ≤ size := by
    rw [partitionSizes_eq]
    decide
  exact Nat.add_le_add_left (padded_mono (hsizes _ (m.sizes_eq ▸ List.mem_map_of_mem hp))) _

/-! ### Nothing left to lose -/

theorem bump_bump (m : Memory) (k l : ℕ) : (m.bump k).bump l = (m.bump l).bump k := by
  rw [bump, bump, bump, bump, Nat.add_right_comm]

theorem pushMemory_eq_none {size : ℕ}
    (h : m.main_memory + MAX_TOTAL_MEMORY < m.memory_cursor + size) :
    pushMemory m size = (none, m.bump size) := if_pos h

/-- Where no new block fits, a reservation does not depend on where the cursor is. -/
theorem Full.reserve (h : m.Full) (k : ℕ) (size : UInt32) :
    reserveMemory (m.bump k) size = ((reserveMemory m size).1, (reserveMemory m size).2.bump k) ∧
      (reserveMemory m size).2.Full := by
  have hfull : m.main_memory + MAX_TOTAL_MEMORY < m.memory_cursor + bucketSize MIN_BUCKET_SIZE := h
  have hparts : (m.bump k).partitions = m.partitions := rfl
  unfold reserveMemory
  rw [hparts]
  cases hf : m.partitions.find? fun p => size.toNat ≤ p.size with
  | none => exact ⟨rfl, h⟩
  | some p =>
    simp only
    cases p.free_buckets with
    | cons b rest => exact ⟨rfl, h⟩
    | nil =>
      have hmin := bucketSize_min_le (List.mem_of_find?_eq_some hf)
      have hpush : pushMemory m (bucketSize p.size) = (none, m.bump (bucketSize p.size)) :=
        pushMemory_eq_none (by omega)
      have hpush' :
          pushMemory (m.bump k) (bucketSize p.size) =
          (none, (m.bump k).bump (bucketSize p.size)) := by
        refine pushMemory_eq_none ?_
        show m.main_memory + MAX_TOTAL_MEMORY < m.memory_cursor + k + bucketSize p.size
        omega
      show newBucket p (pushMemory (m.bump k) (bucketSize p.size)) =
          ((newBucket p (pushMemory m (bucketSize p.size))).1,
            (newBucket p (pushMemory m (bucketSize p.size))).2.bump k) ∧
        (newBucket p (pushMemory m (bucketSize p.size))).2.Full
      rw [hpush, hpush', bump_bump]
      refine ⟨rfl, ?_⟩
      show m.main_memory + MAX_TOTAL_MEMORY < m.memory_cursor + bucketSize p.size +
        bucketSize MIN_BUCKET_SIZE
      omega

/-- Nor do later calls. -/
theorem Full.results (h : m.Full) (k : ℕ) (calls : List Call) :
    (m.bump k).results calls = m.results calls := by
  induction calls generalizing m with
  | nil => rfl
  | cons call calls ih =>
    cases call with
    | reserve size =>
      obtain ⟨hr, hfull⟩ := h.reserve k size
      rw [Memory.results, hr, ih hfull, Memory.results]
    | release b =>
      have hfull : (releaseMemory m b).Full := h
      exact ih hfull

/-! ### Something to lose -/

/-- What the first partition is asked for comes from it. -/
theorem find?_first {rest : List Partition} (hp : m.partitions = p :: rest) :
    m.partitions.find? (fun q => (UInt32.ofNat p.size).toNat ≤ q.size) = some p := by
  rw [hp, List.find?_cons_of_pos]
  rw [decide_eq_true_iff, UInt32.toNat_ofNat']
  exact Nat.mod_le _ _

/-- The calls that empty the free list of a partition and ask for one block more. -/
def emptying (p : Partition) : List Call :=
  List.replicate (p.free_buckets.length + 1) (.reserve (UInt32.ofNat p.size))

/-- The last of these calls is answered by whether there is room for a new block. -/
theorem getLast?_results_emptying {rest : List Partition} (hp : m.partitions = p :: rest) :
    (m.results (emptying p)).getLast?.map Option.isSome =
      some (decide (m.memory_cursor + bucketSize p.size ≤ m.main_memory + MAX_TOTAL_MEMORY)) := by
  generalize hn : p.free_buckets.length = n
  induction n generalizing m p rest with
  | zero =>
    have hnil : p.free_buckets = [] := List.length_eq_zero_iff.mp hn
    have hcalls : emptying p = [.reserve (UInt32.ofNat p.size)] := by
      rw [emptying, hn]
      rfl
    rw [hcalls, results, results]
    rcases reserveMemory_cases m (UInt32.ofNat p.size) with ⟨hbig, -⟩ | ⟨q, hf, hq⟩
    · exact absurd (by simpa using List.find?_some (find?_first hp))
        (hbig p (hp ▸ List.mem_cons_self))
    · obtain rfl := Option.some.inj (hf.symm.trans (find?_first hp))
      rcases hq with ⟨b, l, hl, -⟩ | ⟨-, hfit, hr⟩ | ⟨-, hno, hr⟩
      · rw [hnil] at hl
        cases hl
      · rw [hr, decide_eq_true hfit]
        rfl
      · rw [hr, decide_eq_false (Nat.not_le.mpr hno)]
        rfl
  | succ n ih =>
    obtain ⟨b, l, hl⟩ := List.exists_cons_of_length_eq_add_one hn
    have hr :
        reserveMemory m (UInt32.ofNat p.size) =
        (some b, m.modify p.size Partition.popFree fun _ => rfl) := by
      rw [reserveMemory, find?_first hp]
      simp only [hl]
    have hparts : (m.modify p.size Partition.popFree fun _ => rfl).partitions =
        p.popFree :: rest.map fun q => if q.size = p.size then q.popFree else q := by
      show (m.partitions.map fun q => if q.size = p.size then q.popFree else q) = _
      rw [hp, List.map_cons, if_pos rfl]
    have hlen : p.popFree.free_buckets.length = n := by
      show p.free_buckets.tail.length = n
      rw [List.length_tail, hn, Nat.add_sub_cancel]
    have hcalls : emptying p = .reserve (UInt32.ofNat p.size) :: emptying p.popFree := by
      rw [emptying, emptying, hn, hlen]
      rfl
    have hrest := ih hparts hlen
    obtain ⟨x, hx, hx'⟩ := Option.map_eq_some_iff.mp hrest
    rw [hcalls, results, hr, List.getLast?_cons, hx]
    exact congrArg some hx'

/-- Reservations are always permitted. -/
theorem permitted_emptying (m : Memory) (live : List Bucket) (n : ℕ) :
    m.Permitted live (List.replicate n (.reserve size)) := by
  induction n generalizing m live with
  | zero => trivial
  | succ n ih => exact ih _ _

/-- The first partition is the smallest. -/
theorem exists_first (m : Memory) : ∃ p rest, m.partitions = p :: rest ∧
    p.size = MIN_BUCKET_SIZE := by
  have hsizes := m.sizes_eq
  rw [partitionSizes_eq] at hsizes
  obtain ⟨p, rest, hp, hs, -⟩ := List.map_eq_cons_iff.mp hsizes
  exact ⟨p, rest, hp, hs⟩

/-- A size up to the biggest is that of some partition, or smaller. -/
theorem exists_fitting (m : Memory) (h : size.toNat ≤ MAX_BUCKET_SIZE) :
    ∃ p ∈ m.partitions, size.toNat ≤ p.size := by
  have hmax : MAX_BUCKET_SIZE ∈ m.partitions.map Partition.size := by
    rw [m.sizes_eq, partitionSizes_eq]
    decide
  obtain ⟨p, hp, hs⟩ := List.mem_map.mp hmax
  exact ⟨p, hp, hs ▸ h⟩

/-- A refused reservation that was not too big has moved the cursor beyond the end. -/
theorem refused_cases (hr : reserveMemory m size = (none, m'))
    (hsize : size.toNat ≤ MAX_BUCKET_SIZE) :
    ∃ k, m' = m.bump k ∧ m.main_memory + MAX_TOTAL_MEMORY < m.memory_cursor + k := by
  rcases reserveMemory_cases m size
    with ⟨hbig, -⟩ | ⟨p, -, ⟨b, l, -, he⟩ | ⟨-, -, he⟩ | ⟨-, hno, he⟩⟩
  · obtain ⟨p, hp, hs⟩ := exists_fitting m hsize
    exact absurd hs (hbig p hp)
  · rw [he] at hr
    cases hr
  · rw [he] at hr
    cases hr
  · rw [he] at hr
    exact ⟨_, (Prod.mk.inj hr).2.symm, hno⟩

theorem refused_of_big (hr : reserveMemory m size = (none, m'))
    (hsize : MAX_BUCKET_SIZE < size.toNat) : m' = m := by
  rcases reserveMemory_cases m size with ⟨-, he⟩ | ⟨p, hf, -⟩
  · rw [he] at hr
    exact (Prod.mk.inj hr).2.symm
  · have hle : size.toNat ≤ p.size := by simpa using List.find?_some hf
    have hmax :=
      le_of_mem_partitionSizes (m.sizes_eq ▸ List.mem_map_of_mem (List.mem_of_find?_eq_some hf))
    omega

/-- Where there was room for a block of the smallest partition, its free list and the block
behind it show the difference. -/
theorem refused_seen (hr : reserveMemory m size = (none, m')) (hsize : size.toNat ≤ MAX_BUCKET_SIZE)
    (hroom : ¬ m.Full) {rest : List Partition} (hp : m.partitions = p :: rest)
    (hmin : p.size = MIN_BUCKET_SIZE) :
    m'.results (emptying p) ≠ m.results (emptying p) := by
  obtain ⟨k, rfl, hend⟩ := refused_cases hr hsize
  intro h
  have hlast := getLast?_results_emptying hp
  have hlast' := getLast?_results_emptying (m := m.bump k) hp
  rw [h, hlast, hmin] at hlast'
  have hfits : m.memory_cursor + bucketSize MIN_BUCKET_SIZE ≤ m.main_memory + MAX_TOTAL_MEMORY :=
    Nat.not_lt.mp hroom
  have hfits' :
      m.memory_cursor + k + bucketSize MIN_BUCKET_SIZE ≤ m.main_memory + MAX_TOTAL_MEMORY :=
    (decide_eq_decide.mp (Option.some.inj hlast')).mp hfits
  omega

/-! ### Filling the region -/

/-- Calls lead from a state of the allocator to another. -/
theorem Reach.after (h : m.Reach live) {calls : List Call} (hc : m.Permitted live calls) :
    ∃ live', (m.after calls).Reach live' := by
  induction calls generalizing m live with
  | nil => exact ⟨live, h⟩
  | cons call calls ih =>
    cases call with
    | reserve size =>
      have hrest :
        (reserveMemory m size).2.Permitted ((reserveMemory m size).1.toList ++ live) calls := hc
      rw [Memory.after]
      generalize hr : reserveMemory m size = answer at hrest ⊢
      obtain ⟨_ | b, m'⟩ := answer
      · exact ih (h.refuse hr) hrest
      · exact ih (h.reserve hr) hrest
    | release b => exact ih (h.release hc.1) hc.2

/-- Where nothing is free, a block of the biggest partition is made anew if there is room. -/
theorem reserve_biggest (hfree : m.freeBuckets = []) (hsize : size.toNat = MAX_BUCKET_SIZE) :
    (m.memory_cursor + bucketSize MAX_BUCKET_SIZE ≤ m.main_memory + MAX_TOTAL_MEMORY ∧
      (reserveMemory m size).2 =
      (m.bump (bucketSize MAX_BUCKET_SIZE)).modify MAX_BUCKET_SIZE Partition.addUsed fun _ => rfl) ∨
    (m.main_memory + MAX_TOTAL_MEMORY < m.memory_cursor + bucketSize MAX_BUCKET_SIZE ∧
      reserveMemory m size = (none, m.bump (bucketSize MAX_BUCKET_SIZE))) := by
  rcases reserveMemory_cases m size with ⟨hbig, -⟩ | ⟨p, hf, hp⟩
  · obtain ⟨p, hp, hs⟩ := exists_fitting m (Nat.le_of_eq hsize)
    exact absurd hs (hbig p hp)
  · have hmem := List.mem_of_find?_eq_some hf
    have hle : size.toNat ≤ p.size := by simpa using List.find?_some hf
    have hmax := le_of_mem_partitionSizes (m.sizes_eq ▸ List.mem_map_of_mem hmem)
    have hps : p.size = MAX_BUCKET_SIZE := by omega
    rw [hps] at hp
    rcases hp with ⟨b, rest, hl, -⟩ | ⟨-, hfit, hr⟩ | ⟨-, hno, hr⟩
    · have hnil := List.flatMap_eq_nil_iff.mp hfree p hmem
      rw [hl] at hnil
      cases hnil
    · exact Or.inl ⟨hfit, congrArg Prod.snd hr⟩
    · exact Or.inr ⟨hno, hr⟩

/-- So many blocks of the biggest partition can be made as there is room for. -/
theorem after_biggest (hfree : m.freeBuckets = []) (hsize : size.toNat = MAX_BUCKET_SIZE) (n : ℕ)
    (hfit : m.memory_cursor + n * bucketSize MAX_BUCKET_SIZE ≤ m.main_memory + MAX_TOTAL_MEMORY) :
    (m.after (List.replicate n (.reserve size))).freeBuckets = [] ∧
      (m.after (List.replicate n (.reserve size))).main_memory = m.main_memory ∧
      (m.after (List.replicate n (.reserve size))).memory_cursor =
        m.memory_cursor + n * bucketSize MAX_BUCKET_SIZE := by
  induction n generalizing m with
  | zero => exact ⟨hfree, rfl, (Nat.zero_mul _).symm ▸ rfl⟩
  | succ n ih =>
    rw [Nat.succ_mul] at hfit ⊢
    rcases reserve_biggest hfree hsize with ⟨-, hr⟩ | ⟨hno, -⟩
    · rw [List.replicate_succ, after, hr]
      obtain ⟨ihf, ihm, ihc⟩ := ih ((freeBuckets_addUsed (m.bump _) MAX_BUCKET_SIZE).trans hfree)
        (show m.memory_cursor + bucketSize MAX_BUCKET_SIZE + n * bucketSize MAX_BUCKET_SIZE ≤
          m.main_memory + MAX_TOTAL_MEMORY by omega)
      refine ⟨ihf, ihm, ihc.trans ?_⟩
      show m.memory_cursor + bucketSize MAX_BUCKET_SIZE + n * bucketSize MAX_BUCKET_SIZE = _
      omega
    · omega

/-- When the biggest blocks have taken all the room that there is for them, one refused reservation
leaves none at all. -/
theorem exists_full (n : ℕ)
    (hfit : totalSystemSize + n * bucketSize MAX_BUCKET_SIZE ≤ MAX_TOTAL_MEMORY)
    (hno : MAX_TOTAL_MEMORY < totalSystemSize + n * bucketSize MAX_BUCKET_SIZE +
      bucketSize MAX_BUCKET_SIZE) :
    ∃ (live : List Bucket) (m : Memory), m.Reach live ∧ m.Full ∧ m.freeBuckets = [] := by
  have hsize : (0x800000 : UInt32).toNat = MAX_BUCKET_SIZE := rfl
  have hinit : (initMemory 0).memory_cursor = totalSystemSize := Nat.zero_add _
  have hmain : (initMemory 0).main_memory = 0 := rfl
  obtain ⟨hfree, hmain', hcursor⟩ := after_biggest (freeBuckets_init 0) hsize n (by omega)
  obtain ⟨live, hreach⟩ := (Reach.init 0).after (permitted_emptying (initMemory 0) [] n)
  generalize (initMemory 0).after (List.replicate n (.reserve 0x800000)) =
    m at hfree hmain' hcursor hreach
  rcases reserve_biggest hfree hsize with ⟨hroom, -⟩ | ⟨hno, hr⟩
  · omega
  · refine ⟨live, _, hreach.refuse hr, ?_, hfree⟩
    show m.main_memory + MAX_TOTAL_MEMORY < m.memory_cursor + bucketSize MAX_BUCKET_SIZE +
      bucketSize MIN_BUCKET_SIZE
    exact Nat.lt_of_lt_of_le hno (Nat.le_add_right _ _)

/-! ### When a refusal is seen -/

/-- A refused reservation is not seen in the answers to later calls if and only if it was
too big for any partition, or no new block fitted in any case. -/
theorem refusal_unseen_iff (hr : reserveMemory m size = (none, m')) :
    (∀ calls, m'.Permitted live calls → m'.results calls = m.results calls) ↔
      MAX_BUCKET_SIZE < size.toNat ∨ m.Full := by
  constructor
  · intro h
    by_contra hnot
    obtain ⟨hsize, hroom⟩ := not_or.mp hnot
    obtain ⟨p, rest, hp, hmin⟩ := exists_first m
    exact refused_seen hr (Nat.not_lt.mp hsize) hroom hp hmin (h _ (permitted_emptying ..))
  · rintro (hsize | hfull) calls -
    · rw [refused_of_big hr hsize]
    · by_cases hsize : size.toNat ≤ MAX_BUCKET_SIZE
      · obtain ⟨k, rfl, -⟩ := refused_cases hr hsize
        exact hfull.results k calls
      · rw [refused_of_big hr (Nat.not_le.mp hsize)]

/-- More than the biggest bucket can hold is refused without a trace, and so is any block when
nothing is left. -/
theorem refusal_unseen_full :
    (∃ m', reserveMemory (initMemory 0) 0x800001 = (none, m') ∧
      ∀ calls, m'.Permitted [] calls → m'.results calls = (initMemory 0).results calls) ∧
    ∃ (live : List Bucket) (m m' : Memory), m.Reach live ∧ m.Full ∧
      reserveMemory m 0x800000 = (none, m') ∧ ∀ calls, m'.Permitted live calls →
      m'.results calls = m.results calls := by
  refine ⟨?_, ?_⟩
  · have hsize : MAX_BUCKET_SIZE < (0x800001 : UInt32).toNat := by decide
    have hnone := reserveMemory_eq_none (m := initMemory 0) hsize
    have hr :
        reserveMemory (initMemory 0) 0x800001 = (none, (reserveMemory (initMemory 0) 0x800001).2) :=
      Prod.ext hnone rfl
    exact ⟨_, hr, (refusal_unseen_iff hr).mpr (Or.inl hsize)⟩
  · have hbig : bucketSize MAX_BUCKET_SIZE = 8388640 := rfl
    have htotal : MAX_TOTAL_MEMORY = 0xFFFFFFFF := rfl
    have hsystem := totalSystemSize_eq
    obtain ⟨live, m, hreach, hfull, hfree⟩ := exists_full 503 (by omega) (by omega)
    have hsize : (0x800000 : UInt32).toNat = MAX_BUCKET_SIZE := rfl
    have hle : bucketSize MIN_BUCKET_SIZE ≤ bucketSize MAX_BUCKET_SIZE := by decide
    rcases reserve_biggest hfree hsize with ⟨hroom, -⟩ | ⟨-, hr⟩
    · exact absurd (Nat.lt_of_lt_of_le hfull (Nat.add_le_add_left hle _)) (Nat.not_lt.mpr hroom)
    · exact ⟨live, m, _, hreach, hfull, hr, (refusal_unseen_iff hr).mpr (Or.inr hfull)⟩

/-- After so many of the biggest blocks that no other fits, that one is refused, and after it
also the smallest, if there was room for that. -/
theorem refusal_seen_after (n : ℕ)
    (hfit : totalSystemSize + n * bucketSize MAX_BUCKET_SIZE + bucketSize MIN_BUCKET_SIZE ≤
      MAX_TOTAL_MEMORY)
    (hno : MAX_TOTAL_MEMORY < totalSystemSize + n * bucketSize MAX_BUCKET_SIZE +
      bucketSize MAX_BUCKET_SIZE) :
    ∃ live m', ((initMemory 0).after (List.replicate n (.reserve 0x800000))).Reach live ∧
      reserveMemory ((initMemory 0).after (List.replicate n (.reserve 0x800000)))
        0x800000 = (none, m') ∧ m'.Permitted live [.reserve 0x100] ∧
          m'.results [.reserve 0x100] ≠
            ((initMemory 0).after (List.replicate n (.reserve 0x800000))).results
              [.reserve 0x100] := by
  have hsize : (0x800000 : UInt32).toNat = MAX_BUCKET_SIZE := rfl
  have hinit : (initMemory 0).memory_cursor = totalSystemSize := Nat.zero_add _
  have hmain : (initMemory 0).main_memory = 0 := rfl
  obtain ⟨hfree, hmain', hcursor⟩ := after_biggest (freeBuckets_init 0) hsize n (by omega)
  obtain ⟨live, hreach⟩ := (Reach.init 0).after (permitted_emptying (initMemory 0) [] n)
  generalize (initMemory 0).after (List.replicate n (.reserve 0x800000)) =
    m at hfree hmain' hcursor hreach ⊢
  rcases reserve_biggest hfree hsize with ⟨hroom, -⟩ | ⟨-, hr⟩
  · omega
  · obtain ⟨p, rest, hp, hmin⟩ := exists_first m
    have hcalls : emptying p = [.reserve 0x100] := by
      have hnil := List.flatMap_eq_nil_iff.mp hfree p (hp ▸ List.mem_cons_self)
      rw [emptying, hnil, hmin]
      rfl
    have hroom : ¬ m.Full := by
      rw [Full]
      omega
    exact ⟨live, _, hreach, hr, trivial,
      hcalls ▸ refused_seen hr (Nat.le_of_eq hsize) hroom hp hmin⟩

/-- After 503 of the biggest blocks another one is refused, and then one of the smallest is. -/
theorem refusal_seen :
    ∃ live m', ((initMemory 0).after (List.replicate 503 (.reserve 0x800000))).Reach live ∧
    reserveMemory ((initMemory 0).after (List.replicate 503 (.reserve 0x800000)))
      0x800000 = (none, m') ∧ m'.Permitted live [.reserve 0x100] ∧
        m'.results [.reserve 0x100] ≠
          ((initMemory 0).after (List.replicate 503 (.reserve 0x800000))).results
            [.reserve 0x100] := by
  have hbig : bucketSize MAX_BUCKET_SIZE = 8388640 := rfl
  have hmin : bucketSize MIN_BUCKET_SIZE = 288 := rfl
  refine refusal_seen_after 503 ?_ ?_
  · rw [hbig, hmin, totalSystemSize_eq, MAX_TOTAL_MEMORY]
    omega
  · rw [hbig, totalSystemSize_eq, MAX_TOTAL_MEMORY]
    omega

end Memory

end Cik

import Cik.Source.Memory
import Cik.Library.Threads
import Mathlib.Data.List.Nodup
import Mathlib.Logic.Function.Basic

/-!
# The free lists under interleaving

`reserve_memory` and `release_memory` of `memory.c`, run by any number of threads, with
a step for each access to `free_buckets` and to `bucket->next`. The lowest bit of
`free_buckets` is a mark: a thread that has set it is the only one to take a bucket off
that list, and none is put on it meanwhile, as the value `release_memory` expects there
is never a marked one.

A bucket is named by its address, and a partition by its size. A bucket's `data` and
`partition` are written before any other thread knows of it, and are taken to be there
as soon as `push_memory` gave the bucket. The counters are left out.
-/

namespace Cik

/-- A pointer to a bucket with its lowest bit. -/
structure Pointer where
  /-- Where it points. -/
  bucket : Option ℕ
  /-- The lowest bit. -/
  mark : Bool
  deriving DecidableEq

/-- What the threads share. -/
structure FreeLists (τ : Type*) where
  /-- Where the region begins. -/
  main_memory : ℕ
  /-- Where what was not yet handed out begins. -/
  memory_cursor : ℕ
  /-- `partition->free_buckets`. -/
  free_buckets : ℕ → Pointer
  /-- `bucket->next`. -/
  next : ℕ → Pointer
  /-- `bucket->partition`, of the buckets that there are. -/
  partition : ℕ → Option ℕ
  /-- The buckets that a thread was given and has not released. -/
  live : τ → List ℕ

/-- Where a thread is. -/
inductive MemoryLoc where
  /-- In neither function. -/
  | idle
  /-- `reserve_memory`: at `MARK_POINTER`. -/
  | mark (p : ℕ)
  /-- At `READ_POINTER`; the list is marked. -/
  | readHead (p : ℕ)
  /-- At the load of `bucket->next`. -/
  | readNext (p b : ℕ)
  /-- At `WRITE_POINTER`. -/
  | writeHead (p b : ℕ) (next : Pointer)
  /-- At `UNMARK_POINTER`; the list is empty. -/
  | unmark (p : ℕ)
  /-- At `push_memory`. -/
  | pushMemory (p : ℕ)
  /-- At the return. -/
  | reserved (b : ℕ)
  /-- `release_memory`: at `READ_POINTER`. -/
  | readFree (b : ℕ)
  /-- At the store to `bucket->next`. -/
  | writeNext (b : ℕ) (next : Pointer)
  /-- At the load of `bucket->next`, for the exchange. -/
  | loadNext (b : ℕ)
  /-- At `atomic_compare_exchange_weak`. -/
  | exchange (b : ℕ) (expected : Pointer)
  /-- The exchange failed, and what was there is stored to `bucket->next`. -/
  | storeNext (b : ℕ) (actual : Pointer)

variable {τ : Type*}

/-- The steps of `reserve_memory` and `release_memory`. A thread may also give a bucket it
owns to another. -/
inductive MemoryStep [DecidableEq τ] (t : τ) : FreeLists τ → MemoryLoc → Unit → FreeLists τ →
    MemoryLoc → Prop where
  /-- The partition is found. -/
  | reserve {m : FreeLists τ} {p : ℕ} (size : UInt32)
      (h : partitionSizes.find? (size.toNat ≤ ·) = some p) :
      MemoryStep t m .idle () m (.mark p)
  /-- There is none that is big enough. -/
  | refuse {m : FreeLists τ} (size : UInt32) (h : partitionSizes.find? (size.toNat ≤ ·) = none) :
      MemoryStep t m .idle () m .idle
  /-- The thread marks the list. -/
  | marked {m : FreeLists τ} {p : ℕ} (h : (m.free_buckets p).mark = false) :
      MemoryStep t m (.mark p) ()
        { m with
          free_buckets := Function.update m.free_buckets p ⟨(m.free_buckets p).bucket, true⟩ }
        (.readHead p)
  /-- Another has. -/
  | lost {m : FreeLists τ} {p : ℕ} (h : (m.free_buckets p).mark = true) :
      MemoryStep t m (.mark p) () m (.pushMemory p)
  /-- The list begins with a bucket. -/
  | head {m : FreeLists τ} {p b : ℕ} (h : (m.free_buckets p).bucket = some b) :
      MemoryStep t m (.readHead p) () m (.readNext p b)
  /-- The list is empty. -/
  | empty {m : FreeLists τ} {p : ℕ} (h : (m.free_buckets p).bucket = none) :
      MemoryStep t m (.readHead p) () m (.unmark p)
  /-- The bucket after it is read. -/
  | next {m : FreeLists τ} {p b : ℕ} :
      MemoryStep t m (.readNext p b) () m (.writeHead p b (m.next b))
  /-- The list begins with that one from now on, without the mark. -/
  | pop {m : FreeLists τ} {p b : ℕ} {next : Pointer} :
      MemoryStep t m (.writeHead p b next) ()
        { m with free_buckets := Function.update m.free_buckets p next }
        (.reserved b)
  /-- The mark is taken away. -/
  | unmarked {m : FreeLists τ} {p : ℕ} :
      MemoryStep t m (.unmark p) ()
        { m with
          free_buckets := Function.update m.free_buckets p ⟨(m.free_buckets p).bucket, false⟩ }
        (.pushMemory p)
  /-- A new bucket. -/
  | push {m : FreeLists τ} {p : ℕ}
      (h : m.memory_cursor + (padded sizeofBucket + padded p) ≤ m.main_memory + MAX_TOTAL_MEMORY) :
      MemoryStep t m (.pushMemory p) ()
        { m with
          memory_cursor := m.memory_cursor + (padded sizeofBucket + padded p)
          partition := Function.update m.partition m.memory_cursor (some p) }
            (.reserved m.memory_cursor)
  /-- There is no room for one. -/
  | full {m : FreeLists τ} {p : ℕ}
      (h : m.main_memory + MAX_TOTAL_MEMORY < m.memory_cursor + (padded sizeofBucket + padded p)) :
      MemoryStep t m (.pushMemory p) ()
        { m with memory_cursor := m.memory_cursor + (padded sizeofBucket + padded p) } .idle
  /-- `reserve_memory` returns the bucket. -/
  | reserved {m : FreeLists τ} {b : ℕ} :
      MemoryStep t m (.reserved b) ()
        { m with live := Function.update m.live t (b :: m.live t) } .idle
  /-- `release_memory` is called. -/
  | release {m : FreeLists τ} {b : ℕ} (h : b ∈ m.live t) :
      MemoryStep t m .idle () { m with live := Function.update m.live t ((m.live t).erase b) }
        (.readFree b)
  /-- The beginning of the list is read, without its mark. -/
  | readFree {m : FreeLists τ} {b p : ℕ} (h : m.partition b = some p) :
      MemoryStep t m (.readFree b) () m (.writeNext b ⟨(m.free_buckets p).bucket, false⟩)
  /-- It is to come after the bucket. -/
  | writeNext {m : FreeLists τ} {b : ℕ} {next : Pointer} :
      MemoryStep t m (.writeNext b next) ()
        { m with next := Function.update m.next b next } (.loadNext b)
  /-- What the exchange expects is read. -/
  | loadNext {m : FreeLists τ} {b : ℕ} : MemoryStep t m (.loadNext b) () m (.exchange b (m.next b))
  /-- The list begins with the bucket from now on. -/
  | exchanged {m : FreeLists τ} {b p : ℕ} {expected : Pointer} (h : m.partition b = some p)
      (he : m.free_buckets p = expected) :
      MemoryStep t m (.exchange b expected) ()
        { m with free_buckets := Function.update m.free_buckets p ⟨some b, false⟩ } .idle
  /-- Something else was there, or the exchange failed all the same. -/
  | failed {m : FreeLists τ} {b p : ℕ} {expected : Pointer} (h : m.partition b = some p) :
      MemoryStep t m (.exchange b expected) () m (.storeNext b (m.free_buckets p))
  /-- What was there is stored, and the loop goes on. -/
  | storeNext {m : FreeLists τ} {b : ℕ} {actual : Pointer} :
      MemoryStep t m (.storeNext b actual) ()
        { m with next := Function.update m.next b actual } (.readFree b)
  /-- A bucket is given to another thread. -/
  | give {m : FreeLists τ} {b : ℕ} (u : τ) (h : b ∈ m.live t) (hu : u ≠ t) :
      MemoryStep t m .idle ()
        { m with
          live :=
            Function.update (Function.update m.live t ((m.live t).erase b)) u (b :: m.live u) }
        .idle

/-- The threads at start-up, after `init_memory`. -/
def FreeLists.init (main_memory : ℕ) : Threads τ (FreeLists τ) MemoryLoc where
  shared :=
    { main_memory := main_memory
      memory_cursor := main_memory + totalSystemSize
      free_buckets := fun _ => ⟨none, false⟩
      next := fun _ => ⟨none, false⟩
      partition := fun _ => none
      live := fun _ => [] }
  loc := fun _ => .idle

/-! ### What holds -/

/-- The bucket a call has in its hands. -/
def MemoryLoc.hand : MemoryLoc → Option ℕ
  | .reserved b => some b
  | .readFree b => some b
  | .writeNext b _ => some b
  | .loadNext b => some b
  | .exchange b _ => some b
  | .storeNext b _ => some b
  | _ => none

/-- The list a call has marked. -/
def MemoryLoc.marks : MemoryLoc → Option ℕ
  | .readHead p => some p
  | .readNext p _ => some p
  | .writeHead p _ _ => some p
  | .unmark p => some p
  | _ => none

/-- The list that begins at a pointer is `l`; none of its pointers is marked. -/
inductive Linked (next : ℕ → Pointer) : Option ℕ → List ℕ → Prop where
  /-- The end. -/
  | nil : Linked next none []
  /-- A bucket, and the list after it. -/
  | cons {b : ℕ} {l : List ℕ} : (next b).mark = false → Linked next (next b).bucket l →
      Linked next (some b) (b :: l)

/-- Where a bucket can be. -/
inductive Place (τ : Type*) where
  /-- On the list of its partition. -/
  | free
  /-- With its owner. -/
  | live (t : τ)
  /-- In the hands of a call. -/
  | hand (t : τ)

/-- Auxiliary: where each bucket is, and who has marked each list. -/
structure Places (τ : Type*) where
  /-- Where each bucket is. -/
  place : ℕ → Option (Place τ)
  /-- Who has marked each list. -/
  marker : ℕ → Option τ

/-- What holds of what is shared. -/
structure FreeLists.Sound (g : Places τ) (m : FreeLists τ) : Prop where
  /-- The lists are those of the buckets that are free. -/
  linked : ∀ p, ∃ l, Linked m.next (m.free_buckets p).bucket l ∧ l.Nodup ∧
    ∀ b, b ∈ l ↔ g.place b = some .free ∧ m.partition b = some p
  /-- The buckets that are somewhere are those there are. -/
  carved : ∀ b, g.place b = none ↔ m.partition b = none
  /-- They lie before the cursor. -/
  used : ∀ b, m.memory_cursor ≤ b → m.partition b = none
  /-- A list is marked by who has marked it. -/
  marked : ∀ p, (m.free_buckets p).mark = (g.marker p).isSome
  /-- Each owner has a bucket once. -/
  nodup : ∀ t, (m.live t).Nodup
  /-- The owners have the buckets that are with them. -/
  live : ∀ t b, b ∈ m.live t ↔ g.place b = some (.live t)

/-- What a thread knows at each place. -/
def MemoryLoc.Knows (m : FreeLists τ) : MemoryLoc → Prop
  | .readNext p b => (m.free_buckets p).bucket = some b
  | .writeHead p b next => (m.free_buckets p).bucket = some b ∧ next = m.next b
  | .writeNext _ next => next.mark = false
  | .loadNext b => (m.next b).mark = false
  | .exchange b expected => expected = m.next b ∧ expected.mark = false
  | _ => True

/-- What holds of a thread. -/
structure MemoryLoc.Sound (g : Places τ) (t : τ) (m : FreeLists τ) (l : MemoryLoc) : Prop where
  /-- What it has in its hands. -/
  hand : ∀ b, g.place b = some (.hand t) ↔ l.hand = some b
  /-- What it has marked. -/
  marks : ∀ p, g.marker p = some t ↔ l.marks = some p
  /-- What it knows. -/
  knows : l.Knows m

/-! ### Lists and places -/

/-- Only the pointers of the list matter. -/
theorem Linked.congr {next next' : ℕ → Pointer} {o : Option ℕ} {l : List ℕ} (h : Linked next o l)
    (heq : ∀ b ∈ l, next' b = next b) : Linked next' o l := by
  induction h with
  | nil => exact Linked.nil
  | cons hm _ ih =>
    have hb := heq _ List.mem_cons_self
    refine Linked.cons (hb ▸ hm) ?_
    rw [hb]
    exact ih fun b hb => heq b (List.mem_cons_of_mem _ hb)

/-- There is one list at a pointer. -/
theorem Linked.unique {next : ℕ → Pointer} {o : Option ℕ} {l l' : List ℕ} (h : Linked next o l)
    (h' : Linked next o l') : l = l' := by
  induction h generalizing l' with
  | nil =>
    cases h'
    rfl
  | cons _ _ ih =>
    cases h' with
    | cons _ h' => rw [ih h']

variable {g g' : Places τ} {m m' : FreeLists τ} {t u : τ} {l l' : MemoryLoc} {b p : ℕ}

/-- The first bucket of a list is free and one of its partition. -/
theorem FreeLists.Sound.head (h : m.Sound g) (hb : (m.free_buckets p).bucket = some b) :
    g.place b = some .free ∧ m.partition b = some p := by
  obtain ⟨l, hl, -, hmem⟩ := h.linked p
  rw [hb] at hl
  cases hl with
  | cons _ _ => exact (hmem b).mp List.mem_cons_self

/-- What a thread knows is not disturbed by another, which leaves the thread's bucket and the
list the thread has marked alone, and the buckets that are free. -/
theorem MemoryLoc.Sound.frame (hl : l.Sound g u m) (h : m.Sound g)
    (hplace : ∀ b, g'.place b = some (.hand u) ↔ g.place b = some (.hand u))
    (hmarker : ∀ p, g'.marker p = some u ↔ g.marker p = some u)
    (hfree : ∀ p, g.marker p = some u → m'.free_buckets p = m.free_buckets p)
    (hnext : ∀ b, g.place b = some (.hand u) ∨ g.place b = some .free → m'.next b = m.next b) :
    l.Sound g' u m' := by
  refine ⟨fun b => (hplace b).trans (hl.hand b), fun p => (hmarker p).trans (hl.marks p), ?_⟩
  have hknows := hl.knows
  cases l with
  | readNext p b =>
    have hp := hfree p ((hl.marks p).mpr rfl)
    rw [MemoryLoc.Knows] at hknows ⊢
    rw [hp, hknows]
  | writeHead p b next =>
    have hp := hfree p ((hl.marks p).mpr rfl)
    rw [MemoryLoc.Knows] at hknows ⊢
    rw [hp, hnext b (Or.inr (h.head hknows.1).1)]
    exact hknows
  | loadNext b =>
    rw [MemoryLoc.Knows] at hknows ⊢
    rw [hnext b (Or.inl ((hl.hand b).mpr rfl))]
    exact hknows
  | exchange b expected =>
    rw [MemoryLoc.Knows] at hknows ⊢
    rw [hnext b (Or.inl ((hl.hand b).mpr rfl))]
    exact hknows
  | _ => exact hknows

/-! ### What a step does -/

namespace FreeLists

/-- A step of `t` to `m'` and `l'` keeps what holds. -/
def Kept (g : Places τ) (m : FreeLists τ) (t : τ) (m' : FreeLists τ) (l' : MemoryLoc) : Prop :=
  ∃ g', m'.Sound g' ∧ l'.Sound g' t m' ∧ ∀ u ≠ t, ∀ q : MemoryLoc, q.Sound g u m → q.Sound g' u m'

/-- A step that changes nothing but where the thread is. -/
theorem kept_stay (h : m.Sound g) (hl : l.Sound g t m) (hhand : l.hand = l'.hand)
    (hmarks : l.marks = l'.marks) (hknows : l'.Knows m) : Kept g m t m l' := by
  refine ⟨g, h, ⟨?_, ?_, hknows⟩, fun _ _ _ hq => hq⟩
  · rw [← hhand]
    exact hl.hand
  · rw [← hmarks]
    exact hl.marks

theorem kept_marked (h : m.Sound g) (hl : (MemoryLoc.mark p).Sound g t m)
    (hp : (m.free_buckets p).mark = false) :
    Kept g m t
      { m with
        free_buckets := Function.update m.free_buckets p ⟨(m.free_buckets p).bucket, true⟩ }
      (.readHead p) := by
  have hnone : g.marker p = none := by
    rw [h.marked p] at hp
    simpa using hp
  refine ⟨{ g with marker := Function.update g.marker p (some t) },
    ⟨fun q => ?_, h.carved, h.used, fun q => ?_, h.nodup, h.live⟩,
    ⟨hl.hand, update_gains hl.marks, trivial⟩, fun u hu q hq =>
    hq.frame h (fun _ => Iff.rfl) ?_ ?_ ?_⟩
  · obtain ⟨l, hlinked, hl⟩ := h.linked q
    refine ⟨l, ?_, hl⟩
    by_cases hq : q = p
    · subst hq
      simpa using hlinked
    · simpa [hq] using hlinked
  · by_cases hq : q = p
    · simp [hq]
    · simpa [hq] using h.marked q
  · exact update_keeps (by simp [hnone]) (by simpa using Ne.symm hu)
  · intro q hq
    have hqp : q ≠ p := by
      rintro rfl
      rw [hnone] at hq
      cases hq
    exact Function.update_of_ne hqp _ _
  · exact fun _ _ => rfl

theorem kept_unmarked (h : m.Sound g) (hl : (MemoryLoc.unmark p).Sound g t m) :
    Kept g m t
      { m with
        free_buckets := Function.update m.free_buckets p ⟨(m.free_buckets p).bucket, false⟩ }
      (.pushMemory p) := by
  have hsome : g.marker p = some t := (hl.marks p).mpr rfl
  refine ⟨{ g with marker := Function.update g.marker p none },
    ⟨fun q => ?_, h.carved, h.used, fun q => ?_, h.nodup, h.live⟩,
    ⟨hl.hand, update_loses hl.marks (by simp), trivial⟩, fun u hu q hq =>
    hq.frame h (fun _ => Iff.rfl) ?_ ?_ ?_⟩
  · obtain ⟨l, hlinked, hl⟩ := h.linked q
    refine ⟨l, ?_, hl⟩
    by_cases hq : q = p
    · subst hq
      simpa using hlinked
    · simpa [hq] using hlinked
  · by_cases hq : q = p
    · simp [hq]
    · simpa [hq] using h.marked q
  · exact update_keeps (by simpa [hsome] using Ne.symm hu) (by simp)
  · intro q hq
    have hqp : q ≠ p := by
      rintro rfl
      rw [hsome] at hq
      exact hu (Option.some.inj hq).symm
    exact Function.update_of_ne hqp _ _
  · exact fun _ _ => rfl

/-- The bucket is taken off the list that the thread has marked. -/
theorem kept_pop {next : Pointer} (h : m.Sound g)
    (hl : (MemoryLoc.writeHead p b next).Sound g t m) :
    Kept g m t { m with free_buckets := Function.update m.free_buckets p next } (.reserved b) := by
  have hsome : g.marker p = some t := (hl.marks p).mpr rfl
  obtain ⟨hhead, rfl⟩ := hl.knows
  obtain ⟨hfree, hpart⟩ := h.head hhead
  refine ⟨⟨Function.update g.place b (some (.hand t)), Function.update g.marker p none⟩,
    ⟨fun q => ?_, fun c => ?_, h.used, fun q => ?_, h.nodup, fun v c => ?_⟩,
    ⟨update_gains hl.hand, update_loses hl.marks (by simp), trivial⟩,
    fun u hu q hq => hq.frame h ?_ ?_ ?_ ?_⟩
  · obtain ⟨l, hlinked, hnd, hl⟩ := h.linked q
    by_cases hq : q = p
    · subst hq
      rw [hhead] at hlinked
      cases hlinked with
      | @cons _ l _ hlinked =>
        obtain ⟨hb, hnd⟩ := List.nodup_cons.mp hnd
        refine ⟨l, by simpa using hlinked, hnd, fun c => ?_⟩
        by_cases hc : c = b
        · simp [hc, hb]
        · simpa [hc] using hl c
    · refine ⟨l, by simpa [hq] using hlinked, hnd, fun c => ?_⟩
      by_cases hc : c = b
      · simp [hc, hl, hpart, Ne.symm hq]
      · simpa [hc] using hl c
  · exact (update_keeps (by simp [hfree]) (by simp) c).trans (h.carved c)
  · by_cases hq : q = p
    · subst hq
      obtain ⟨l, hlinked, -⟩ := h.linked q
      rw [hhead] at hlinked
      cases hlinked with
      | cons hmark _ => simpa using hmark
    · simpa [hq] using h.marked q
  · exact (h.live v c).trans (update_keeps (by simp [hfree]) (by simp) c).symm
  · exact update_keeps (by simp [hfree]) (by simpa using Ne.symm hu)
  · exact update_keeps (by simpa [hsome] using Ne.symm hu) (by simp)
  · intro q hq
    have hqp : q ≠ p := by
      rintro rfl
      rw [hsome] at hq
      exact hu (Option.some.inj hq).symm
    exact Function.update_of_ne hqp _ _
  · exact fun _ _ => rfl

/-- The bucket is put on the list, which is not marked. -/
theorem kept_exchanged {expected : Pointer} (h : m.Sound g)
    (hl : (MemoryLoc.exchange b expected).Sound g t m) (hp : m.partition b = some p)
    (he : m.free_buckets p = expected) :
    Kept g m t
      { m with free_buckets := Function.update m.free_buckets p ⟨some b, false⟩ } .idle := by
  have hhand : g.place b = some (.hand t) := (hl.hand b).mpr rfl
  obtain ⟨hnext, hmark⟩ := hl.knows
  have hnone : g.marker p = none := by
    rw [← he, h.marked p] at hmark
    simpa using hmark
  refine ⟨{ g with place := Function.update g.place b (some .free) },
    ⟨fun q => ?_, fun c => ?_, h.used, fun q => ?_, h.nodup, fun v c => ?_⟩,
    ⟨update_loses hl.hand (by simp), hl.marks, trivial⟩, fun u hu q hq =>
    hq.frame h ?_ (fun _ => Iff.rfl) ?_ ?_⟩
  · obtain ⟨l, hlinked, hnd, hl⟩ := h.linked q
    have hb : b ∉ l := by simp [hl, hhand]
    by_cases hq : q = p
    · subst hq
      rw [he, hnext] at hlinked
      refine ⟨b :: l, ?_, List.nodup_cons.mpr ⟨hb, hnd⟩, fun c => ?_⟩
      · simp only [Function.update_self]
        exact Linked.cons (hnext ▸ hmark) hlinked
      · by_cases hc : c = b
        · simp [hc, hp]
        · simpa [hc] using hl c
    · refine ⟨l, by simpa [hq] using hlinked, hnd, fun c => ?_⟩
      by_cases hc : c = b
      · simp [hc, hb, hp, Ne.symm hq]
      · simpa [hc] using hl c
  · exact (update_keeps (by simp [hhand]) (by simp) c).trans (h.carved c)
  · by_cases hq : q = p
    · simp [hq, hnone]
    · simpa [hq] using h.marked q
  · exact (h.live v c).trans (update_keeps (by simp [hhand]) (by simp) c).symm
  · exact update_keeps (by simpa [hhand] using Ne.symm hu) (by simp)
  · intro q hq
    have hqp : q ≠ p := by
      rintro rfl
      rw [hnone] at hq
      cases hq
    exact Function.update_of_ne hqp _ _
  · exact fun _ _ => rfl

/-- What comes after a bucket is changed by the thread that has it in its hands. -/
theorem kept_setNext {next : Pointer} (h : m.Sound g) (hl : l.Sound g t m) (hb : l.hand = some b)
    (hhand : l.hand = l'.hand) (hmarks : l.marks = l'.marks)
    (hknows : l'.Knows { m with next := Function.update m.next b next }) :
    Kept g m t { m with next := Function.update m.next b next } l' := by
  have hplace : g.place b = some (.hand t) := (hl.hand b).mpr hb
  refine ⟨g, ⟨fun q => ?_, h.carved, h.used, h.marked, h.nodup, h.live⟩, ⟨?_, ?_, hknows⟩,
      fun u hu q hq =>
    hq.frame h (fun _ => Iff.rfl) (fun _ => Iff.rfl) (fun _ _ => rfl) fun c hc => ?_⟩
  · obtain ⟨l, hlinked, hnd, hl⟩ := h.linked q
    refine ⟨l, hlinked.congr fun c hc => Function.update_of_ne ?_ _ _, hnd, hl⟩
    rintro rfl
    rw [hl, hplace] at hc
    cases hc.1
  · rw [← hhand]
    exact hl.hand
  · rw [← hmarks]
    exact hl.marks
  · refine Function.update_of_ne ?_ _ _
    rintro rfl
    rw [hplace] at hc
    rcases hc with hc | hc
    · cases hc
      exact hu rfl
    · cases hc

theorem padded_sizeofBucket_pos : 0 < padded sizeofBucket := by decide

/-- A new bucket lies where the cursor was, where there was none. -/
theorem kept_push (h : m.Sound g) (hl : (MemoryLoc.pushMemory p).Sound g t m) :
    Kept g m t
      { m with
        memory_cursor := m.memory_cursor + (padded sizeofBucket + padded p)
        partition := Function.update m.partition m.memory_cursor (some p) }
          (.reserved m.memory_cursor) := by
  have hpart : m.partition m.memory_cursor = none := h.used _ (Nat.le_refl _)
  have hnone : g.place m.memory_cursor = none := (h.carved _).mpr hpart
  have hpos := padded_sizeofBucket_pos
  refine ⟨{ g with place := Function.update g.place m.memory_cursor (some (.hand t)) },
    ⟨fun q => ?_, fun c => ?_, fun c hc => ?_, h.marked, h.nodup, fun v c => ?_⟩,
    ⟨update_gains hl.hand, hl.marks, trivial⟩, fun u hu q hq =>
    hq.frame h ?_ (fun _ => Iff.rfl) (fun _ _ => rfl) (fun _ _ => rfl)⟩
  · obtain ⟨l, hlinked, hnd, hl⟩ := h.linked q
    refine ⟨l, hlinked, hnd, fun c => ?_⟩
    by_cases hc : c = m.memory_cursor
    · simp [hc, hl, hnone]
    · simpa [hc] using hl c
  · by_cases hc : c = m.memory_cursor
    · simp [hc]
    · simpa [hc] using h.carved c
  · simp only at hc ⊢
    rw [Function.update_of_ne (by omega)]
    exact h.used c (by omega)
  · exact (h.live v c).trans (update_keeps (by simp [hnone]) (by simp) c).symm
  · exact update_keeps (by simp [hnone]) (by simpa using Ne.symm hu)

/-- There is no room, but the cursor moves. -/
theorem kept_full (h : m.Sound g) (hl : (MemoryLoc.pushMemory p).Sound g t m) :
    Kept g m t
      { m with memory_cursor := m.memory_cursor + (padded sizeofBucket + padded p) } .idle := by
  refine ⟨g, ⟨h.linked, h.carved, fun c hc => ?_, h.marked, h.nodup, h.live⟩,
    ⟨hl.hand, hl.marks, trivial⟩, fun u _ q hq =>
    hq.frame h (fun _ => Iff.rfl) (fun _ => Iff.rfl) (fun _ _ => rfl) (fun _ _ => rfl)⟩
  simp only at hc
  exact h.used c (by omega)

/-- A bucket that is not free goes from one place to another, and the owners' buckets with it. -/
theorem kept_moved {live' : τ → List ℕ} (b : ℕ) (pl : Place τ) (h : m.Sound g)
    (hb : g.place b ≠ none) (hfree : g.place b ≠ some .free) (hto : pl ≠ .free)
    (hnd : ∀ u, (live' u).Nodup)
    (hlive : ∀ u c, c ∈ live' u ↔ Function.update g.place b (some pl) c = some (.live u))
    (hhand : ∀ c, Function.update g.place b (some pl) c = some (.hand t) ↔ l'.hand = some c)
    (hmarks : ∀ p, g.marker p = some t ↔ l'.marks = some p)
    (hknows : l'.Knows { m with live := live' })
    (hothers : ∀ u ≠ t, g.place b ≠ some (.hand u) ∧ pl ≠ .hand u) :
    Kept g m t { m with live := live' } l' := by
  refine ⟨{ g with place := Function.update g.place b (some pl) },
    ⟨fun q => ?_, fun c => ?_, h.used, h.marked, hnd, hlive⟩, ⟨hhand, hmarks, hknows⟩,
    fun u hu q hq => hq.frame h ?_ (fun _ => Iff.rfl) (fun _ _ => rfl) (fun _ _ => rfl)⟩
  · obtain ⟨l, hlinked, hnd, hl⟩ := h.linked q
    exact ⟨l, hlinked, hnd,
      fun c =>
      (hl c).trans (and_congr_left fun _ => (update_keeps hfree (by simpa using hto) c).symm)⟩
  · exact (update_keeps hb (by simp) c).trans (h.carved c)
  · exact update_keeps (hothers u hu).1 (by simpa using (hothers u hu).2)

variable [DecidableEq τ]

theorem kept_reserved (h : m.Sound g) (hl : (MemoryLoc.reserved b).Sound g t m) :
    Kept g m t { m with live := Function.update m.live t (b :: m.live t) } .idle := by
  have hhand : g.place b = some (.hand t) := (hl.hand b).mpr rfl
  have hb : b ∉ m.live t := by simp [h.live, hhand]
  refine kept_moved b (.live t) h (by simp [hhand]) (by simp [hhand]) (by simp) ?_ ?_
    (update_loses hl.hand (by simp)) hl.marks trivial fun u hu =>
    ⟨by simpa [hhand] using Ne.symm hu, by simp⟩
  · intro u
    by_cases hu : u = t
    · rw [hu, Function.update_self]
      exact List.nodup_cons.mpr ⟨hb, h.nodup t⟩
    · rw [Function.update_of_ne hu]
      exact h.nodup u
  · intro u c
    by_cases hu : u = t
    · rw [hu, Function.update_self, List.mem_cons, h.live]
      by_cases hc : c = b
      · simp [hc]
      · simp [hc]
    · rw [Function.update_of_ne hu, h.live]
      exact (update_keeps (by simp [hhand]) (by simpa using Ne.symm hu) c).symm

theorem kept_release (h : m.Sound g) (hl : MemoryLoc.idle.Sound g t m) (hb : b ∈ m.live t) :
    Kept g m t { m with live := Function.update m.live t ((m.live t).erase b) } (.readFree b) := by
  have hlive : g.place b = some (.live t) := (h.live t b).mp hb
  refine kept_moved b (.hand t) h (by simp [hlive]) (by simp [hlive]) (by simp) ?_ ?_
    (update_gains hl.hand) hl.marks trivial fun u hu => ⟨by simp [hlive], by simpa using Ne.symm hu⟩
  · intro u
    by_cases hu : u = t
    · rw [hu, Function.update_self]
      exact (h.nodup t).erase b
    · rw [Function.update_of_ne hu]
      exact h.nodup u
  · intro u c
    by_cases hu : u = t
    · rw [hu, Function.update_self, (h.nodup t).mem_erase_iff, h.live]
      by_cases hc : c = b
      · simp [hc]
      · simp [hc]
    · rw [Function.update_of_ne hu, h.live]
      exact (update_keeps (by simpa [hlive] using Ne.symm hu) (by simp) c).symm

theorem kept_give (h : m.Sound g) (hl : MemoryLoc.idle.Sound g t m) (hb : b ∈ m.live t)
    (hu : u ≠ t) :
    Kept g m t
      { m with
        live :=
          Function.update (Function.update m.live t ((m.live t).erase b)) u (b :: m.live u) }
      .idle := by
  have hlive : g.place b = some (.live t) := (h.live t b).mp hb
  have hbu : b ∉ m.live u := by simpa [h.live, hlive] using Ne.symm hu
  refine kept_moved b (.live u) h (by simp [hlive]) (by simp [hlive]) (by simp) ?_ ?_
    (fun c => (update_keeps (by simp [hlive]) (by simp) c).trans (hl.hand c)) hl.marks trivial
    fun v _ => ⟨by simp [hlive], by simp⟩
  · intro v
    by_cases hv : v = u
    · rw [hv, Function.update_self]
      exact List.nodup_cons.mpr ⟨hbu, h.nodup u⟩
    · rw [Function.update_of_ne hv]
      by_cases hvt : v = t
      · rw [hvt, Function.update_self]
        exact (h.nodup t).erase b
      · rw [Function.update_of_ne hvt]
        exact h.nodup v
  · intro v c
    by_cases hv : v = u
    · rw [hv, Function.update_self, List.mem_cons, h.live]
      by_cases hc : c = b
      · simp [hc]
      · simp [hc]
    · rw [Function.update_of_ne hv]
      by_cases hvt : v = t
      · rw [hvt, Function.update_self, (h.nodup t).mem_erase_iff, h.live]
        by_cases hc : c = b
        · simpa [hc] using hu
        · simp [hc]
      · rw [Function.update_of_ne hvt, h.live]
        exact (update_keeps (by simpa [hlive] using Ne.symm hvt) (by simpa using Ne.symm hv) c).symm

/-- Every step keeps what holds. -/
theorem keeps :
    Threads.Keeps (MemoryStep (τ := τ)) (fun _ => FreeLists.Sound)
      (fun g t m l => l.Sound g t m) := by
  intro _ g t m l _ m' l' h hl hs
  suffices hk : Kept g m t m' l' from hk
  cases hs with
  | reserve size hf => exact kept_stay h hl rfl rfl trivial
  | refuse size hf => exact kept_stay h hl rfl rfl trivial
  | marked hm => exact kept_marked h hl hm
  | lost hm => exact kept_stay h hl rfl rfl trivial
  | head hb => exact kept_stay h hl rfl rfl hb
  | empty hb => exact kept_stay h hl rfl rfl trivial
  | next => exact kept_stay h hl rfl rfl ⟨hl.knows, rfl⟩
  | pop => exact kept_pop h hl
  | unmarked => exact kept_unmarked h hl
  | push hfit => exact kept_push h hl
  | full hfit => exact kept_full h hl
  | reserved => exact kept_reserved h hl
  | release hb => exact kept_release h hl hb
  | readFree hp => exact kept_stay h hl rfl rfl rfl
  | writeNext => exact kept_setNext h hl rfl rfl rfl (by simpa [MemoryLoc.Knows] using hl.knows)
  | loadNext => exact kept_stay h hl rfl rfl ⟨rfl, hl.knows⟩
  | exchanged hp he => exact kept_exchanged h hl hp he
  | failed hp => exact kept_stay h hl rfl rfl trivial
  | storeNext => exact kept_setNext h hl rfl rfl rfl trivial
  | give u hb hu => exact kept_give h hl hb hu

end FreeLists

/-! ### In every reachable state -/

/-- The bucket is on the list of the partition. -/
def FreeLists.OnList (m : FreeLists τ) (p b : ℕ) : Prop :=
  ∃ l, Linked m.next (m.free_buckets p).bucket l ∧ b ∈ l

/-- No bucket is lost or handed out wrongly. -/
structure FreeLists.Exact (c : Threads τ (FreeLists τ) MemoryLoc) : Prop where
  /-- Each list is finite and without a cycle; its buckets are of its partition. -/
  linked : ∀ p, ∃ l, Linked c.shared.next (c.shared.free_buckets p).bucket l ∧ l.Nodup ∧
    ∀ b ∈ l, c.shared.partition b = some p
  /-- A bucket on a list has no owner and is in nobody's hands. -/
  free : ∀ p b, c.shared.OnList p b → ∀ t, b ∉ c.shared.live t ∧ (c.loc t).hand ≠ some b
  /-- A bucket with an owner has no other, is there once, and is in nobody's hands. -/
  live : ∀ t b, b ∈ c.shared.live t →
    (c.shared.live t).count b = 1 ∧ (∀ u, b ∈ c.shared.live u → u = t) ∧
    ∀ u, (c.loc u).hand ≠ some b
  /-- A bucket in the hands of a call is in those of no other. -/
  hand : ∀ t u b, (c.loc t).hand = some b → (c.loc u).hand = some b → t = u
  /-- No bucket is lost. -/
  kept : ∀ b p, c.shared.partition b = some p →
    c.shared.OnList p b ∨ (∃ t, b ∈ c.shared.live t) ∨ ∃ t, (c.loc t).hand = some b
  /-- A list is marked by one call at most. -/
  marks : ∀ t u p, (c.loc t).marks = some p → (c.loc u).marks = some p → t = u

theorem FreeLists.holds_init [DecidableEq τ] (main_memory : ℕ) :
    Threads.Holds (fun _ : List (τ × Unit) => FreeLists.Sound) (fun g t m l => l.Sound g t m) []
      (FreeLists.init main_memory) := by
  refine ⟨⟨fun _ => none, fun _ => none⟩,
    ⟨fun p => ⟨[], Linked.nil, List.nodup_nil, ?_⟩, ?_, ?_, ?_, ?_, ?_⟩, fun t => ⟨?_,
    ?_, trivial⟩⟩ <;> simp [FreeLists.init, MemoryLoc.hand, MemoryLoc.marks]

/-- The free lists never hand out or lose a bucket wrongly, whatever threads do. -/
theorem FreeLists.exact_of_reachable [DecidableEq τ] {main_memory : ℕ}
    {c : Threads τ (FreeLists τ) MemoryLoc}
    (h : Threads.Reachable MemoryStep (FreeLists.init main_memory) c) : FreeLists.Exact c := by
  obtain ⟨g, hm, hl⟩ := h.invariant FreeLists.keeps (FreeLists.holds_init main_memory)
  have hfree {p b : ℕ} (hon : c.shared.OnList p b) : g.place b = some .free := by
    obtain ⟨l, hlinked, hb⟩ := hon
    obtain ⟨l', hlinked', -, hmem⟩ := hm.linked p
    rw [hlinked.unique hlinked'] at hb
    exact ((hmem b).mp hb).1
  refine ⟨fun p => ?_, fun p b hon t => ⟨fun hb => ?_, fun hb => ?_⟩, fun t b hb => ?_,
    fun t u b ht hu => ?_, fun b p hp => ?_, fun t u p ht hu => ?_⟩
  · obtain ⟨l, hlinked, hnd, hmem⟩ := hm.linked p
    exact ⟨l, hlinked, hnd, fun b hb => ((hmem b).mp hb).2⟩
  · have hlive := (hm.live t b).mp hb
    rw [hfree hon] at hlive
    cases hlive
  · have hhand := ((hl t).hand b).mpr hb
    rw [hfree hon] at hhand
    cases hhand
  · have hlive := (hm.live t b).mp hb
    refine ⟨List.count_eq_one_of_mem (hm.nodup t) hb, fun u hu => ?_, fun u hu => ?_⟩
    · have hlive' := (hm.live u b).mp hu
      rw [hlive] at hlive'
      cases hlive'
      rfl
    · have hhand := ((hl u).hand b).mpr hu
      rw [hlive] at hhand
      cases hhand
  · have ht' := ((hl t).hand b).mpr ht
    rw [((hl u).hand b).mpr hu] at ht'
    cases ht'
    rfl
  · cases hplace : g.place b with
    | none =>
      rw [(hm.carved b).mp hplace] at hp
      cases hp
    | some place =>
      cases place with
      | free =>
        obtain ⟨l, hlinked, -, hmem⟩ := hm.linked p
        exact Or.inl ⟨l, hlinked, (hmem b).mpr ⟨hplace, hp⟩⟩
      | live t => exact Or.inr (Or.inl ⟨t, (hm.live t b).mpr hplace⟩)
      | hand t => exact Or.inr (Or.inr ⟨t, ((hl t).hand b).mp hplace⟩)
  · have ht' := ((hl t).marks p).mpr ht
    rw [((hl u).marks p).mpr hu] at ht'
    exact (Option.some.inj ht').symm

/-- A bucket is carved, released and, while another thread finds the list marked and carves its own,
taken off the list again. -/
theorem FreeLists.leads_marked :
    Threads.Leads (Threads.Step MemoryStep) (fun _ c₁ => c₁.shared.OnList 256 totalSystemSize ∧
      Threads.Leads (Threads.Step MemoryStep) (fun _ c₂ => (c₂.loc true).marks = some 256 ∧
        c₂.loc false = .pushMemory 256 ∧
        Threads.Leads (Threads.Step MemoryStep) (fun _ c₃ =>
          totalSystemSize ∈ c₃.shared.live true ∧ c₃.shared.live false ≠ []) c₂) c₁)
      (FreeLists.init 0 : Threads Bool (FreeLists Bool) MemoryLoc) := by
  have hfind : partitionSizes.find? ((1 : UInt32).toNat ≤ ·) = some 256 := by
    rw [partitionSizes_eq]
    rfl
  have hroom :
    0 + totalSystemSize + (padded sizeofBucket + padded 256) + (padded sizeofBucket + padded 256) ≤
      0 + MAX_TOTAL_MEMORY := by
    rw [totalSystemSize_eq]
    decide
  -- a bucket is carved
  refine .next true rfl (.reserve 1 hfind) ?_
  refine .next true rfl (.marked rfl) ?_
  refine .next true rfl (.empty rfl) ?_
  refine .next true rfl .unmarked ?_
  refine .next true rfl (.push (Nat.le_of_add_right_le hroom)) ?_
  refine .next true rfl .reserved ?_
  -- it is pushed
  refine .next true rfl (.release List.mem_cons_self) ?_
  refine .next true rfl (.readFree rfl) ?_
  refine .next true rfl .writeNext ?_
  refine .next true rfl .loadNext ?_
  refine .next true rfl (.exchanged rfl rfl) ?_
  refine .done ⟨⟨[totalSystemSize], .cons rfl .nil, List.mem_cons_self⟩, ?_⟩
  -- two threads contend for the list
  refine .next true rfl (.reserve 1 hfind) ?_
  refine .next true rfl (.marked rfl) ?_
  refine .next false rfl (.reserve 1 hfind) ?_
  refine .next false rfl (.lost rfl) ?_
  refine .done ⟨rfl, rfl, ?_⟩
  -- the bucket is popped, and another is carved
  refine .next true rfl (.head rfl) ?_
  refine .next true rfl .next ?_
  refine .next false rfl (.push hroom) ?_
  refine .next true rfl .pop ?_
  refine .next true rfl .reserved ?_
  refine .next false rfl .reserved ?_
  exact .done ⟨List.mem_cons_self, List.cons_ne_nil _ _⟩
/-- The free lists in three states of a run: a bucket was carved and pushed, another thread finds
the list marked, and the bucket was popped while the other thread carved its own. -/
theorem FreeLists.exact_of_reachable_marked : ∃ c₁ c₂ c₃ : Threads Bool (FreeLists Bool) MemoryLoc,
    c₁.shared.OnList 256 totalSystemSize ∧ FreeLists.Exact c₁ ∧
    (c₂.loc true).marks = some 256 ∧ c₂.loc false = .pushMemory 256 ∧ FreeLists.Exact c₂ ∧
    totalSystemSize ∈ c₃.shared.live true ∧ c₃.shared.live false ≠ [] ∧ FreeLists.Exact c₃ := by
  obtain ⟨l₁, c₁, h₁, hon, l₂, c₂, h₂, hmarks, hlost, l₃, c₃, h₃, htrue, hfalse⟩ :=
    FreeLists.leads_marked
  have h₂ := h₁.append h₂
  exact ⟨c₁, c₂, c₃, hon, FreeLists.exact_of_reachable ⟨l₁, h₁⟩, hmarks, hlost,
    FreeLists.exact_of_reachable ⟨_, h₂⟩, htrue, hfalse,
    FreeLists.exact_of_reachable ⟨_, h₂.append h₃⟩⟩

end Cik

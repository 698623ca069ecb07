import Cik.Theory.Soundness

/-!
# The size of an entry

A SET asks for the bytes of its entry in a sum that goes through `u32`, `size_t` and
`u32` again. When the bytes are less than `2 ^ 32` the sum is exact, and whatever
bucket the allocator hands out holds the entry, with its parts one behind the other.
When they are more the sum wraps round, a small bucket is handed out, and the value is
read over its end; the client chooses the length of the value, so it can have this
(`bucketHolds_iff`).
-/

namespace Cik

/-- What a SET's header and its tags say about sizes. -/
structure SetSizes where
  /-- The length of the key. -/
  klen : UInt8
  /-- The lengths of the tags. -/
  tags : List UInt8
  /-- The length of the value. -/
  vlen : UInt32
  /-- The number of tags fits a byte. -/
  ntags_le : tags.length ≤ 255

namespace SetSizes

variable (z : SetSizes)

/-- The lengths of the tags, as numbers. -/
def tagLengths : List ℕ := z.tags.map UInt8.toNat

/-- The bytes of the entry with all its parts. -/
def exact : ℕ :=
  sizeofCacheEntry + sizeofCacheTag * z.tagLengths.length + z.tagLengths.sum +
    z.klen.toNat + z.vlen.toNat

/-- Where the parts of the entry lie, and how long they are. -/
def regions : List (ℕ × ℕ) :=
  let layout := layoutEntry z.tagLengths z.klen z.vlen
  (0, sizeofCacheEntry) :: (layout.tagArray, sizeofCacheTag * z.tagLengths.length) ::
    (layout.tags.zip z.tagLengths ++ [(layout.key, z.klen.toNat), (layout.value, z.vlen.toNat)])

/-- Whatever the allocator has been through, a bucket that the SET is given holds the entry: its
parts lie one behind the other and end in the bucket. And the value is no longer than the biggest
bucket. -/
def BucketHolds : Prop :=
  ∀ (m m' : Memory) (live : List Bucket) (b : Bucket), Memory.Reach m live →
    reserveAndLockEntry m (setTotalSize z.tagLengths z.klen z.vlen) = (some b, m') →
      z.exact ≤ b.partition ∧ z.regions.Pairwise (fun x y => x.1 + x.2 ≤ y.1) ∧
        (∀ x ∈ z.regions, x.1 + x.2 ≤ b.partition) ∧ z.vlen.toNat ≤ MAX_BUCKET_SIZE

end SetSizes

/-! ### The parts of an entry -/

/-- Regions that follow each other from `start` to `stop`. -/
def Consecutive : ℕ → List (ℕ × ℕ) → ℕ → Prop
  | start, [], stop => start = stop
  | start, (base, len) :: regions, stop => base = start ∧ Consecutive (base + len) regions stop

section Consecutive

variable {start mid stop : ℕ} {l₁ l₂ regions : List (ℕ × ℕ)}

theorem Consecutive.append (h₁ : Consecutive start l₁ mid) (h₂ : Consecutive mid l₂ stop) :
    Consecutive start (l₁ ++ l₂) stop := by
  induction l₁ generalizing start with
  | nil => exact (h₁ : start = mid) ▸ h₂
  | cons x l₁ ih => exact ⟨h₁.1, ih h₁.2⟩

theorem Consecutive.bounds (h : Consecutive start regions stop) :
    ∀ x ∈ regions, start ≤ x.1 ∧ x.1 + x.2 ≤ stop := by
  induction regions generalizing start with
  | nil => simp
  | cons y regions ih =>
    obtain ⟨rfl, h⟩ := h
    have hle : y.1 + y.2 ≤ stop := by
      cases regions with
      | nil => exact le_of_eq h
      | cons z regions =>
        have := ih h z List.mem_cons_self
        omega
    intro x hx
    rcases List.mem_cons.mp hx with rfl | hx
    · exact ⟨le_rfl, hle⟩
    · have := ih h x hx
      omega

/-- Regions that follow each other do not overlap. -/
theorem Consecutive.pairwise (h : Consecutive start regions stop) :
    regions.Pairwise fun x y => x.1 + x.2 ≤ y.1 := by
  induction regions generalizing start with
  | nil => exact .nil
  | cons y regions ih => exact .cons (fun x hx => (Consecutive.bounds h.2 x hx).1) (ih h.2)

end Consecutive

theorem layoutTags_spec (payload : ℕ) (lengths : List ℕ) :
    Consecutive payload ((layoutTags payload lengths).1.zip lengths)
      (layoutTags payload lengths).2 ∧ (layoutTags payload lengths).2 = payload + lengths.sum := by
  induction lengths generalizing payload with
  | nil => exact ⟨rfl, rfl⟩
  | cons n lengths ih =>
    obtain ⟨h₁, h₂⟩ := ih (payload + n)
    exact ⟨⟨rfl, h₁⟩, by rw [layoutTags, h₂, List.sum_cons, Nat.add_assoc]⟩

theorem layoutEntry_stop (tagLengths : List ℕ) (klen : UInt8) (vlen : UInt32) :
    (layoutEntry tagLengths klen vlen).stop = sizeofCacheEntry + sizeofCacheTag *
    tagLengths.length + tagLengths.sum + klen.toNat + vlen.toNat := by
  obtain ⟨-, h⟩ :=
    layoutTags_spec (sizeofCacheEntry + sizeofCacheTag * tagLengths.length) tagLengths
  simp only [layoutEntry, h]

namespace SetSizes

variable (z : SetSizes)

theorem consecutive_regions : Consecutive 0 z.regions z.exact := by
  obtain ⟨h₁, h₂⟩ :=
    layoutTags_spec (sizeofCacheEntry + sizeofCacheTag * z.tagLengths.length) z.tagLengths
  refine ⟨rfl, (Nat.zero_add _).symm, ?_⟩
  refine Consecutive.append h₁ ⟨rfl, rfl, ?_⟩
  simp only [layoutEntry, h₂, Consecutive, exact]

theorem entrySize_eq :
    (entrySize (setTotalSize z.tagLengths z.klen z.vlen)).toNat = z.exact % 2 ^ 32 :=
  entrySize_setTotalSize _ _ _

/-- The bytes of an entry are less than `2 ^ 32` and a few thousand. -/
theorem exact_lt : z.exact < 2 ^ 32 + 0x20000 := by
  have hs : z.tagLengths.sum ≤ 65025 := by
    have hall : ∀ n ∈ z.tagLengths, n ≤ 255 := by
      intro n hn
      obtain ⟨b, -, rfl⟩ := List.mem_map.mp hn
      have := b.toNat_lt
      omega
    have hsum := List.sum_le_card_nsmul _ _ hall
    have hl : z.tagLengths.length ≤ 255 := by rw [tagLengths, List.length_map]; exact z.ntags_le
    have hmul : z.tagLengths.length * 255 ≤ 255 * 255 := Nat.mul_le_mul_right 255 hl
    rw [Nat.nsmul_eq_mul] at hsum
    omega
  have hl : z.tagLengths.length ≤ 255 := by rw [tagLengths, List.length_map]; exact z.ntags_le
  have hk := z.klen.toNat_lt
  have hv := z.vlen.toNat_lt
  have h₁ : sizeofCacheEntry = 72 := rfl
  have h₂ : sizeofCacheTag = 16 := rfl
  rw [exact, h₁, h₂]
  omega

/-- A SET of less than `2 ^ 32` bytes is given a bucket that holds it. -/
theorem bucketHolds_of_lt (h : z.exact < 2 ^ 32) : z.BucketHolds := by
  intro m m' live b _ hr
  have hfit := reserveMemory_fits (m := m) (b := b) (by rw [← reserveAndLockEntry, hr])
  rw [entrySize_eq, Nat.mod_eq_of_lt h] at hfit
  have hc := z.consecutive_regions
  refine ⟨hfit.1, hc.pairwise, fun x hx => le_trans (hc.bounds x hx).2 hfit.1, ?_⟩
  have : z.vlen.toNat ≤ z.exact := Nat.le_add_left _ _
  omega

/-- A SET of more bytes is given a small bucket at start-up. -/
theorem not_bucketHolds_of_ge (h : 2 ^ 32 ≤ z.exact) : ¬ z.BucketHolds := by
  intro hb
  have hlt := z.exact_lt
  have hmax : MAX_BUCKET_SIZE = 0x800000 := rfl
  have hsize : (entrySize (setTotalSize z.tagLengths z.klen z.vlen)).toNat ≤ MAX_BUCKET_SIZE := by
    rw [entrySize_eq]
    omega
  obtain ⟨b, hsome⟩ := Option.isSome_iff_exists.mp (reserveMemory_initMemory 0 hsize)
  have hr : reserveAndLockEntry (initMemory 0) (setTotalSize z.tagLengths z.klen z.vlen) =
      (some b, (reserveAndLockEntry (initMemory 0) (setTotalSize z.tagLengths z.klen z.vlen)).2) :=
    Prod.ext hsome rfl
  have := (hb _ _ _ b (.init 0) hr).1
  have := (reserveMemory_fits hsome).2
  omega

end SetSizes

/-! ### Values in the store -/

/-- In a store that such SETs made no value is longer than the biggest bucket. -/
theorem values_le {l : List Served} {s : Store}
    (h : Run (Provided (fun _ q => q.cmd.Sized) Served.Step) Store.init l s) :
    s.All fun _ e => e.value.length ≤ MAX_BUCKET_SIZE := by
  have hwf := wf_of_sized h (.init _)
  exact fun i pos e he => (hwf i pos e he).value_le

/-- The bucket of a SET holds its entry, whatever the allocator has been through, just when the
entry has less than `2 ^ 32` bytes; and when all SETs are so, no GET finds a value too long for its
buffer. -/
theorem bucketHolds_iff (z : SetSizes) :
    (z.BucketHolds ↔ z.exact < 2 ^ 32) ∧
      ∀ (l : List Served) (s : Store),
      Run (Provided (fun _ q => q.cmd.Sized) Served.Step) Store.init l s →
        ∀ (q : Served) (key : CacheKey) (ignore : Bool), q.cmd = .get key ignore →
        (q.handle s).status ≠ .bug := by
  refine ⟨⟨fun h => ?_, z.bucketHolds_of_lt⟩, fun l s h q key ignore hq => ?_⟩
  · by_contra hge
    exact z.not_bucketHolds_of_ge (not_lt.mp hge) h
  · have hv := values_le h
    rw [(q.answers s).status, hq]
    simp only [Cmd.exec]
    cases hg : lockAndGetCacheEntry (s.mapOf key) key with
    | none => simp
    | some found =>
      obtain ⟨pos, entry⟩ := found
      have hle : ¬ entry.value.length > MAX_BUCKET_SIZE :=
        not_lt.mpr (hv.current (current_of_get hg))
      simp only
      split_ifs
      · simp
      · simp

/-- A SET of a hundred bytes has a bucket that holds it; and a GET after a SET of one byte finds
it. -/
theorem bucketHolds_iff_small :
    (⟨1, [2], 100, by decide⟩ : SetSizes).BucketHolds ∧
      ∀ s, Served.Step Store.init
          (.alone (.set [1] [[2]] [3] 5) ⟨by decide, by decide, by decide⟩
            (Memory.env (initMemory 0) 0)) s →
        ((Served.alone (.get [1] false) (by decide : IsName [1])
          (Memory.env (initMemory 0) 0)).handle s).status ≠ .bug :=
  ⟨(bucketHolds_iff _).1.mpr (by decide), fun s hs =>
    have hsized : (Cmd.set [1] [[2]] [3] 5).Sized := (by decide : exactSize [1] [[2]] [3] < 2 ^ 32)
    (bucketHolds_iff ⟨1, [2], 100, by decide⟩).2 _ s (.cons ⟨hsized, hs⟩ (.nil s)) _ [1] false rfl⟩

/-- A key of one byte, no tags, and a value of `2 ^ 32 - 1` bytes. -/
def hugeSet : SetSizes := ⟨1, [], 0xFFFFFFFF, by decide⟩

/-- For such a SET 72 bytes are reserved. -/
theorem not_bucketHolds_hugeSet : ¬ hugeSet.BucketHolds := hugeSet.not_bucketHolds_of_ge (by decide)

end Cik

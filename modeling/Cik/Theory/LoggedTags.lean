import Cik.Source.Log
import Cik.Theory.Replies

/-!
# Tags in the log

What is printed of the tags of a request are the first ones, as many as have room in the
array of the entry (`printed_iff`), unless some of them fill it to the last byte. Then
there is no zero behind them where the reader would stop, and the writer's count is zero
again, so that it goes on from the beginning.
-/

namespace Cik

/-- A tag as it lies in an entry. -/
def logRecord (tag : CacheTag) : List UInt8 := UInt8.ofNat tag.length :: tag

theorem length_logRecord (tag : CacheTag) : (logRecord tag).length = tag.length + 1 := rfl

theorem wireLength_nil : wireLength [] = 0 := rfl

theorem wireLength_cons (tag : CacheTag) (tags : List CacheTag) :
    wireLength (tag :: tags) = tag.length + 1 + wireLength tags := by
  rw [wireLength, List.map_cons, List.sum_cons, wireLength]

theorem wireLength_concat (tags : List CacheTag) (tag : CacheTag) :
    wireLength (tags ++ [tag]) = wireLength tags + (tag.length + 1) := by
  rw [wireLength, wireLength, List.map_append, List.sum_append, List.map_singleton,
    List.sum_singleton]

/-! ### Writing -/

section Writing

variable {data : ByteMemory} {done tags : List CacheTag} {tag : CacheTag} {nmemb : UInt8}

/-- These tags were written, and the rest of the array is zero. -/
structure Written (data : ByteMemory) (done : List CacheTag) : Prop where
  /-- The tags. -/
  bytes : data.read 0 (wireLength done) = done.flatMap logRecord
  /-- The rest. -/
  zero : ∀ i, wireLength done ≤ i → i < LOG_DATA_SIZE → data i = 0

theorem written_nil : Written (fun _ => 0) [] := ⟨rfl, fun _ _ _ => rfl⟩

/-- A tag is written behind the others. -/
theorem Written.concat (h : Written data done) (tag : CacheTag) :
    Written
      ((data.write (wireLength done) [UInt8.ofNat tag.length]).write (wireLength done + 1) tag)
        (done ++ [tag]) := by
  have hw :
    (data.write (wireLength done) [UInt8.ofNat tag.length]).write (wireLength done + 1) tag =
      data.write (wireLength done) (logRecord tag) := ByteMemory.write_append ..
  have hself := ByteMemory.read_write_self data (wireLength done) (logRecord tag)
  rw [length_logRecord] at hself
  rw [hw]
  refine ⟨?_, fun i hi hlt => ?_⟩
  · rw [wireLength_concat, ByteMemory.read_add, Nat.zero_add, hself,
      ByteMemory.read_write_of_disjoint _ (Or.inl (Nat.le_of_eq (Nat.zero_add _))), h.bytes,
      List.flatMap_append, List.flatMap_singleton]
  · rw [wireLength_concat] at hi
    rw [ByteMemory.write, length_logRecord, if_neg (by omega)]
    exact h.zero i (by omega) hlt

/-- The loop writes tags as long as there is room, if they never fill the array to the last byte. -/
theorem logTagsLoop_spec (h : Written data done) (ht : ∀ tag ∈ tags, IsName tag)
    (hn : nmemb.toNat = wireLength done)
    (hne : ∀ l, l <+: tags → wireLength done + wireLength l ≠ LOG_DATA_SIZE) :
    ∃ k ≤ tags.length, Written (logTagsLoop tags data nmemb).1 (done ++ tags.take k) ∧
      wireLength (done ++ tags.take k) < LOG_DATA_SIZE ∧
      (k = tags.length ∨ LOG_DATA_SIZE < wireLength (done ++ tags.take (k + 1))) := by
  have hsize : LOG_DATA_SIZE = 256 := rfl
  have hlt : wireLength done < LOG_DATA_SIZE := by
    have hb := nmemb.toNat_lt
    omega
  induction tags generalizing data done nmemb with
  | nil =>
    refine ⟨0, Nat.le_refl _, ?_, ?_, Or.inl rfl⟩
    · rwa [List.take_zero, List.append_nil]
    · rwa [List.take_zero, List.append_nil]
  | cons tag tags ih =>
    have hname := ht tag List.mem_cons_self
    rw [logTagsLoop]
    by_cases hfull : nmemb.toNat + 1 + tag.length > LOG_DATA_SIZE
    · rw [if_pos hfull]
      refine ⟨0, Nat.zero_le _, ?_, ?_, Or.inr ?_⟩
      · rwa [List.take_zero, List.append_nil]
      · rwa [List.take_zero, List.append_nil]
      · rw [List.take_succ_cons, List.take_zero, wireLength_concat]
        omega
    · -- it is not the last byte that was written
      have hpre : [tag] <+: tag :: tags := ⟨tags, rfl⟩
      have hone := hne [tag] hpre
      rw [wireLength_cons, wireLength_nil] at hone
      have h₁ : (nmemb + 1).toNat = wireLength done + 1 := by
        rw [UInt8.toNat_add, UInt8.toNat_one, hn]
        omega
      have h₂ : (nmemb + 1 + UInt8.ofNat tag.length).toNat = wireLength (done ++ [tag]) := by
        rw [UInt8.toNat_add, h₁, UInt8.toNat_ofNat', wireLength_concat]
        omega
      rw [if_neg hfull]
      dsimp only
      rw [h₁, hn]
      obtain ⟨k, hk, hwritten, hle, hend⟩ := @ih _ (done ++ [tag]) _ (h.concat tag)
        (fun t ht' => ht t (List.mem_cons_of_mem _ ht')) h₂ (fun l hl => by
          have h' := hne (tag :: l) (List.cons_prefix_cons.mpr ⟨rfl, hl⟩)
          rw [wireLength_cons] at h'
          rw [wireLength_concat]
          omega) (by rw [wireLength_concat]; omega)
      have happ (n : ℕ) : done ++ [tag] ++ tags.take n = done ++ (tag :: tags).take (n + 1) := by
        rw [List.append_assoc, List.singleton_append, List.take_succ_cons]
      rw [happ] at hwritten hle
      refine ⟨k + 1, Nat.succ_le_succ hk, hwritten, hle, hend.imp (congrArg Nat.succ) fun h => ?_⟩
      rwa [happ] at h

end Writing

/-! ### Reading -/

section Reading

variable {data : ByteMemory} {l : List CacheTag}

/-- Tags with a zero behind them are read back. -/
theorem printTagsLoop_of_read {p : ℕ} (ht : ∀ tag ∈ l, IsName tag)
    (hr : data.read p (wireLength l) = l.flatMap logRecord) (hz : data (p + wireLength l) = 0)
    (hlt : p + wireLength l < LOG_DATA_SIZE) :
    printTagsLoop data (p + 1) (data p) = some l := by
  induction l generalizing p with
  | nil =>
    have hp : data p = 0 := hz
    rw [printTagsLoop, hp, if_pos rfl]
  | cons tag l ih =>
    have hname := ht tag List.mem_cons_self
    have hpos : 0 < tag.length := List.length_pos_iff.mpr hname.1
    rw [wireLength_cons] at hr hz hlt
    rw [ByteMemory.read_add, List.flatMap_cons] at hr
    obtain ⟨htag, hrest⟩ := List.append_inj hr (by rw [ByteMemory.length_read, length_logRecord])
    rw [Nat.add_comm tag.length, ByteMemory.read_add, logRecord] at htag
    obtain ⟨hlen, hbytes⟩ : data p = UInt8.ofNat tag.length ∧ data.read (p + 1) tag.length = tag :=
      List.cons.inj htag
    have hn : (data p).toNat = tag.length := by
      have hshort := hname.2
      rw [hlen, UInt8.toNat_ofNat']
      omega
    have hne : data p ≠ 0 := by
      intro h
      rw [h, UInt8.toNat_zero] at hn
      omega
    have hnext : p + 1 + tag.length = p + (tag.length + 1) := by omega
    rw [printTagsLoop, if_neg hne, hn, if_pos (by omega), hbytes, hnext,
      ih (fun t h => ht t (List.mem_cons_of_mem _ h)) hrest
        (by rw [Nat.add_assoc]; exact hz) (by omega),
      Option.map_some]

/-- What was read lies in the array. -/
theorem wireLength_of_printTagsLoop {base : ℕ} {nmemb : UInt8}
    (h : printTagsLoop data base nmemb = some l) (hne : l ≠ []) :
    base + wireLength l ≤ LOG_DATA_SIZE := by
  induction l generalizing base nmemb with
  | nil => exact absurd rfl hne
  | cons tag l ih =>
    rw [printTagsLoop] at h
    split_ifs at h with hz hlt
    · cases h
    obtain ⟨rest, hrest, heq⟩ := Option.map_eq_some_iff.mp h
    obtain ⟨rfl, rfl⟩ := List.cons.inj heq
    rw [wireLength_cons, ByteMemory.length_read]
    rcases eq_or_ne rest [] with rfl | hne'
    · rw [wireLength_nil]
      omega
    · have hle := ih hrest hne'
      omega

end Reading

/-! ### What is printed -/

section Printed

variable {type : LogEntryType} {worker_id client_ip : UInt32} {client_port : UInt16}
  {tags : List CacheTag}

/-- What is printed of the tags of a request are the first ones, as many as have room. -/
def Printed (type : LogEntryType) (worker_id client_ip : UInt32) (client_port : UInt16)
    (tags : List CacheTag) : Prop :=
  ∃ word fit, LongestFitting LOG_DATA_SIZE tags fit ∧
    printLogEntry (logRequestWithTags type worker_id client_ip client_port tags) = some (word, fit)

/-- Tags that never fill the array to the last byte are printed. -/
theorem Printed.of_ne (ht : AreTags tags) (hne : ∀ l, l <+: tags → wireLength l ≠ LOG_DATA_SIZE) :
    Printed type worker_id client_ip client_port tags := by
  obtain ⟨k, hk, hwritten, hlt, hend⟩ :=
    @logTagsLoop_spec _ [] tags 0 written_nil ht.2 rfl (fun l hl => by
    rw [wireLength_nil, Nat.zero_add]
    exact hne l hl)
  rw [List.nil_append] at hwritten hlt hend
  have hprint :
    printTagsLoop (logTagsLoop tags (fun _ => 0) 0).1 (0 + 1)
    ((logTagsLoop tags (fun _ => 0) 0).1 0) =
      some (tags.take k) := by
    refine printTagsLoop_of_read (fun tag htag => ht.2 tag (List.mem_of_mem_take htag))
      hwritten.bytes ?_ ?_
    · rw [Nat.zero_add]
      exact hwritten.zero _ (Nat.le_refl _) hlt
    · rwa [Nat.zero_add]
  obtain ⟨word, hword⟩ :
    ∃ word, printLogEntry (logRequestWithTags type worker_id client_ip client_port tags) =
      some (word, tags.take k) := ⟨_, Option.map_eq_some_iff.mpr ⟨_, hprint, rfl⟩⟩
  exact ⟨word, tags.take k, longestFitting_take hk (Nat.le_of_lt hlt) hend, hword⟩

/-- When tags fill the array to the last byte, there is no room for the zero behind them. -/
theorem Printed.ne (h : Printed type worker_id client_ip client_port tags) {l : List CacheTag}
    (hl : l <+: tags) :
    wireLength l ≠ LOG_DATA_SIZE := by
  intro hfull
  obtain ⟨word, fit, hfit, hprint⟩ := h
  obtain ⟨printed, hloop, heq⟩ := Option.map_eq_some_iff.mp hprint
  obtain ⟨-, rfl⟩ := Prod.mk.inj heq
  -- the full ones are the longest ones that fit
  have hlong := hfit.longest l hl (Nat.le_of_eq hfull)
  have hmono := wireLength_le_of_prefix (List.prefix_of_prefix_length_le hl hfit.initial hlong)
  have hne : printed ≠ [] := by
    rintro rfl
    rw [wireLength_nil, hfull] at hmono
    exact absurd hmono (by decide)
  have hle := wireLength_of_printTagsLoop hloop hne
  omega

/-- **Tags in the log.** The thread that prints the log reads back exactly the first tags of the
request, as many as the array has room for, and stays inside of the array, unless some first tags
fill it to the last byte. -/
theorem printed_iff (type : LogEntryType) (worker_id client_ip : UInt32) (client_port : UInt16)
    (tags : List CacheTag) (ht : AreTags tags) :
    Printed type worker_id client_ip client_port tags ↔ ∀ l, l <+: tags →
    wireLength l ≠ LOG_DATA_SIZE :=
  ⟨fun h _ hl => h.ne hl, Printed.of_ne ht⟩

/-- Two tags. -/
theorem printed_two : Printed .clrMatchAny 0 0 0 [[0x61], [0x62, 0x63]] :=
  (printed_iff .clrMatchAny 0 0 0 [[0x61], [0x62, 0x63]] (by decide)).mpr fun l hl => by
    have hle := wireLength_le_of_prefix hl
    have h5 : wireLength [[0x61], [0x62, 0x63]] = 5 := rfl
    have h256 : LOG_DATA_SIZE = 256 := rfl
    omega

/-- Behind a tag of 255 bytes the reader looks behind the array. -/
theorem printLogEntry_long {tag : CacheTag} (h : tag.length = 255) :
    printLogEntry (logRequestWithTags type worker_id client_ip client_port [tag]) = none := by
  have hzero : (logTagsLoop [tag] (fun _ => 0) 0).1 0 = 255 := by
    rw [logTagsLoop, logTagsLoop, if_neg (by rw [h]; decide), h]
    rfl
  have hloop :
      printTagsLoop (logTagsLoop [tag] (fun _ => 0) 0).1 1
      ((logTagsLoop [tag] (fun _ => 0) 0).1 0) = none := by
    rw [hzero, printTagsLoop, if_neg (by decide), if_neg (by decide)]
  exact Option.map_eq_none_iff.mpr hloop

/-- Such a tag is not printed. -/
theorem not_printed_long : AreTags [List.replicate 255 0x61] ∧
    printLogEntry (logRequestWithTags .clrMatchAll 0 0 0 [List.replicate 255 0x61]) = none ∧
    ¬ Printed .clrMatchAll 0 0 0 [List.replicate 255 0x61] := by
  have hlen : (List.replicate 255 (0x61 : UInt8)).length = 255 := List.length_replicate
  refine ⟨⟨Nat.le_of_ble_eq_true rfl, fun tag htag => ?_⟩, printLogEntry_long hlen, ?_⟩
  · rw [List.mem_singleton.mp htag]
    exact ⟨List.ne_nil_of_length_eq_add_one hlen, Nat.le_of_eq hlen⟩
  · rintro ⟨word, fit, -, h⟩
    rw [printLogEntry_long hlen] at h
    cases h

end Printed

end Cik

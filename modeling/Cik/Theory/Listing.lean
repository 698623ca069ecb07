import Cik.Theory.Frames
import Cik.Theory.Store

/-!
# Listings

A LST writes names, each with its length before it and in the client's byte order, to
the worker's buffer until one does not fit. `listing` says what comes of a list of
names, without memory, and `Lists` that the payload that a handler has written is just
that. A handler goes through the names in one of three ways: a walk over the entries,
a walk over the tags, a loop over a list of keys; all three do the same
(`walk_lists`, `foldl_lists`, `listKeys_eq`).
-/

namespace Cik

/-- A name as it is sent. -/
def wireName (name : List UInt8) : List UInt8 := UInt8.ofNat name.length :: name.reverse

@[simp] theorem length_wireName (name : List UInt8) :
    (wireName name).length = name.length + 1 := by simp [wireName]

/-- A name is added to a listing, if nothing failed before and there is room. -/
def listName (cap : ℕ) (r : StatusCode × List UInt8) (name : List UInt8) :
    StatusCode × List UInt8 :=
  if r.1 ≠ .ok then r
  else if r.2.length + 1 + name.length > cap then (.outOfMemory, r.2)
  else (.ok, r.2 ++ wireName name)

/-- What a listing of names comes to when there is room for `cap` bytes. -/
def listing (cap : ℕ) (names : List (List UInt8)) : StatusCode × List UInt8 :=
  names.foldl (listName cap) (.ok, [])

/-- How many bytes the names take. -/
def wireLength (names : List (List UInt8)) : ℕ := (names.map fun name => name.length + 1).sum

theorem length_flatMap_wireName (names : List (List UInt8)) :
    (names.flatMap wireName).length = wireLength names := by
  simp [wireLength, List.length_flatMap]

section Listing

variable {cap : ℕ} {names : List (List UInt8)} {written : List UInt8}

theorem foldl_listName_of_ne_ok {r : StatusCode × List UInt8} (h : r.1 ≠ .ok) :
    names.foldl (listName cap) r = r := by
  induction names with
  | nil => rfl
  | cons name names ih =>
    have hr : listName cap r name = r := if_pos h
    rw [List.foldl_cons, hr, ih]

theorem foldl_listName_of_le (h : written.length + wireLength names ≤ cap) :
    names.foldl (listName cap) (.ok, written) = (.ok, written ++ names.flatMap wireName) := by
  induction names generalizing written with
  | nil => simp
  | cons name names ih =>
    simp only [wireLength, List.map_cons, List.sum_cons] at h
    have hn : listName cap (.ok, written) name = (.ok, written ++ wireName name) := by
      rw [listName, if_neg (by simp), if_neg (by simp only; omega)]
    rw [List.foldl_cons, hn,
      ih (by simp only [List.length_append, length_wireName, wireLength]; omega)]
    simp

theorem foldl_listName_of_lt (h : cap < written.length + wireLength names)
    (hw : written.length ≤ cap) :
    (names.foldl (listName cap) (.ok, written)).1 = .outOfMemory ∧
      written <+: (names.foldl (listName cap) (.ok, written)).2 := by
  induction names generalizing written with
  | nil =>
    simp only [wireLength, List.map_nil, List.sum_nil] at h
    omega
  | cons name names ih =>
    simp only [wireLength, List.map_cons, List.sum_cons] at h
    rw [List.foldl_cons]
    by_cases hfit : written.length + 1 + name.length > cap
    · have hn : listName cap (.ok, written) name = (.outOfMemory, written) := by
        rw [listName, if_neg (by simp), if_pos hfit]
      rw [hn, foldl_listName_of_ne_ok (by simp)]
      exact ⟨rfl, List.prefix_refl _⟩
    · have hn : listName cap (.ok, written) name = (.ok, written ++ wireName name) := by
        rw [listName, if_neg (by simp), if_neg hfit]
      rw [hn]
      have hlen : (written ++ wireName name).length = written.length + (name.length + 1) := by
        rw [List.length_append, length_wireName]
      obtain ⟨h₁, h₂⟩ :=
        ih (by rw [hlen, wireLength]; omega) (by omega : (written ++ wireName name).length ≤ cap)
      exact ⟨h₁, (List.prefix_append _ _).trans h₂⟩

/-- A listing for which there is room has all the names. -/
theorem listing_of_le (h : wireLength names ≤ cap) :
    listing cap names = (.ok, names.flatMap wireName) := by
  rw [listing, foldl_listName_of_le (by simpa using h), List.nil_append]

/-- A listing succeeds when there is room for all the names. -/
theorem listing_ok_iff : (listing cap names).1 = .ok ↔ wireLength names ≤ cap := by
  constructor
  · intro h
    by_contra hlt
    have hcut : (listing cap names).1 = .outOfMemory :=
      (foldl_listName_of_lt (by simpa using hlt) (by simp)).1
    rw [hcut] at h
    cases h
  · intro h
    rw [listing_of_le h]

theorem listing_status : (listing cap names).1 = .ok ∨ (listing cap names).1 = .outOfMemory := by
  by_cases h : wireLength names ≤ cap
  · exact Or.inl (listing_ok_iff.mpr h)
  · exact Or.inr (foldl_listName_of_lt (by simpa using h) (by simp)).1

/-- A listing that is cut short is empty when there is no room for the first name. -/
theorem listing_eq_nil_iff (h : cap < wireLength names) :
    (listing cap names).2 = [] ↔ ∀ name ∈ names.head?, cap < 1 + name.length := by
  cases names with
  | nil => simp [listing]
  | cons name names =>
    simp only [List.head?_cons, Option.mem_def, Option.some.injEq, forall_eq']
    simp only [wireLength, List.map_cons, List.sum_cons] at h
    rw [listing, List.foldl_cons]
    by_cases hfit : cap < 1 + name.length
    · have hn : listName cap (.ok, []) name = (.outOfMemory, []) := by
        rw [listName, if_neg (by simp), if_pos (by simpa using hfit)]
      rw [hn, foldl_listName_of_ne_ok (by simp)]
      exact iff_of_true rfl hfit
    · have hn : listName cap (.ok, []) name = (.ok, wireName name) := by
        rw [listName, if_neg (by simp), if_neg (by simpa using hfit)]
        simp
      obtain ⟨-, t, ht⟩ :
          _ ∧ wireName name <+: (names.foldl (listName cap) (.ok, wireName name)).2 :=
        foldl_listName_of_lt (by simp only [length_wireName, wireLength]; omega)
          (by simp only [length_wireName]; omega)
      rw [hn, ← ht]
      exact iff_of_false (by simp [wireName]) hfit

/-- A listing is made of the first names, as many as there is room for. -/
theorem foldl_listName_eq_take (hw : written.length ≤ cap) :
    ∃ k ≤ names.length, (names.foldl (listName cap) (.ok, written)).2 = written ++
    (names.take k).flatMap wireName ∧
      written.length + wireLength (names.take k) ≤ cap ∧
      ((k = names.length ∧ (names.foldl (listName cap) (.ok, written)).1 = .ok) ∨
        (k < names.length ∧ (names.foldl (listName cap) (.ok, written)).1 = .outOfMemory ∧
          cap < written.length + wireLength (names.take (k + 1)))) := by
  induction names generalizing written with
  | nil => exact ⟨0, Nat.le_refl _, (List.append_nil _).symm, hw, Or.inl ⟨rfl, rfl⟩⟩
  | cons name names ih =>
    have hlen (l : List (List UInt8)) :
        wireLength (name :: l) = name.length + 1 + wireLength l := by
      rw [wireLength, List.map_cons, List.sum_cons, wireLength]
    have hnil : wireLength [] = 0 := rfl
    rw [List.foldl_cons]
    by_cases hfit : written.length + 1 + name.length > cap
    · have hn : listName cap (.ok, written) name = (.outOfMemory, written) := by
        rw [listName, if_neg (by simp), if_pos hfit]
      rw [hn, foldl_listName_of_ne_ok (by simp)]
      refine ⟨0, Nat.zero_le _, (List.append_nil _).symm, hw, Or.inr ⟨Nat.succ_pos _, rfl, ?_⟩⟩
      rw [List.take_succ_cons, List.take_zero, hlen, hnil]
      omega
    · have hn : listName cap (.ok, written) name = (.ok, written ++ wireName name) := by
        rw [listName, if_neg (by simp), if_neg hfit]
      have hlen' : (written ++ wireName name).length = written.length + (name.length + 1) := by
        rw [List.length_append, length_wireName]
      have hroom : (written ++ wireName name).length ≤ cap := by omega
      obtain ⟨k, hk, hbytes, hle, hend⟩ := ih hroom
      rw [hn]
      refine ⟨k + 1, Nat.succ_le_succ hk, ?_, ?_, ?_⟩
      · rw [hbytes, List.take_succ_cons, List.flatMap_cons, List.append_assoc]
      · rw [List.take_succ_cons, hlen]
        omega
      · rcases hend with ⟨rfl, hok⟩ | ⟨hlt, hcut, hover⟩
        · exact Or.inl ⟨rfl, hok⟩
        · refine Or.inr ⟨Nat.succ_lt_succ hlt, hcut, ?_⟩
          rw [List.take_succ_cons, hlen]
          omega

/-- A listing is no longer than there is room for. -/
theorem length_listing_le : (listing cap names).2.length ≤ cap := by
  obtain ⟨k, -, hbytes, hle, -⟩ := @foldl_listName_eq_take cap names [] (Nat.zero_le _)
  rw [listing, hbytes, List.nil_append, length_flatMap_wireName]
  rwa [List.length_nil, Nat.zero_add] at hle

end Listing

/-! ### Writing a name -/

/-- Memory with a name written at `p`: its length, then its bytes in the client's order. -/
def writeName (base : ByteMemory) (p : ℕ) (name : List UInt8) : ByteMemory :=
  reverseBytes ((base.write p [UInt8.ofNat name.length]).write (p + 1) name) (p + 1)
    (UInt32.ofNat name.length)

theorem toNat_length {name : List UInt8} (hn : IsName name) :
    (UInt32.ofNat name.length).toNat = name.length := by
  have hlen := hn.2
  rw [UInt32.toNat_ofNat']
  omega

/-- What is written is the name as it is sent. -/
theorem read_writeName (base : ByteMemory) (p : ℕ) {name : List UInt8} (hn : IsName name) :
    (writeName base p name).read p (wireName name).length = wireName name := by
  have hu := toNat_length hn
  have hpos : 0 < (UInt32.ofNat name.length).toNat := by
    rw [hu]
    exact List.length_pos_iff.mpr hn.1
  have hlen : (wireName name).length = 1 + name.length := by rw [length_wireName, Nat.add_comm]
  have hrev :=
    read_reverseBytes ((base.write p [UInt8.ofNat name.length]).write (p + 1) name) (p + 1) hpos
  have hw := ByteMemory.read_write_self base p [UInt8.ofNat name.length]
  rw [hu, ByteMemory.read_write_self] at hrev
  rw [List.length_singleton] at hw
  rw [hlen, ByteMemory.read_add, writeName, hrev,
    read_reverseBytes_of_disjoint _ hpos (Or.inl (Nat.le_refl _)),
    ByteMemory.read_write_of_disjoint _ (Or.inl (Nat.le_refl _)), hw]
  rfl

/-- The rest of memory is as before. -/
theorem writeName_of_not_mem (base : ByteMemory) {p a : ℕ} {name : List UInt8} (hn : IsName name)
    (ha : a < p ∨ p + (wireName name).length ≤ a) : writeName base p name a = base a := by
  have hu := toNat_length hn
  have hpos : 0 < (UInt32.ofNat name.length).toNat := by
    rw [hu]
    exact List.length_pos_iff.mpr hn.1
  rw [length_wireName] at ha
  rw [writeName, reverseBytes_apply _ _ _ hpos, hu, if_neg (by omega), ByteMemory.write,
    if_neg (by omega), ByteMemory.write, List.length_singleton, if_neg (by omega)]

theorem putName_eq (name : List UInt8) (data : ListData) : putName name data =
    if data.nmemb + 1 + name.length > data.cap then { data with status := .outOfMemory }
    else { data with
      base := writeName data.base (data.offset + data.nmemb) name
      nmemb := data.nmemb + 1 + name.length } := rfl

/-! ### The payload that is written -/

/-- The payload written so far is a listing; `named` says that the names in it can be sent. The
buffer before the payload is as it was. -/
structure Lists (named : Prop) (base : ByteMemory) (offset cap : ℕ) (data : ListData)
    (r : StatusCode × List UInt8) : Prop where
  /-- The status. -/
  status : data.status = r.1
  /-- How many bytes were written. -/
  nmemb : data.nmemb = r.2.length
  /-- Which bytes were written. -/
  bytes : named → data.base.read offset data.nmemb = r.2
  /-- Where the payload is. -/
  offset_eq : data.offset = offset
  /-- How much room there is. -/
  cap_eq : data.cap = cap
  /-- What lies before it. -/
  before : ∀ a n, a + n ≤ offset → data.base.read a n = base.read a n

section Lists

variable {named : Prop} {base : ByteMemory} {offset cap : ℕ} {data : ListData}
  {r : StatusCode × List UInt8}

/-- Writing a name adds it to the listing. -/
theorem Lists.putName (h : Lists named base offset cap data r) {name : List UInt8}
    (hn : named → IsName name) :
    Lists named base offset cap (if data.status ≠ .ok then data else putName name data)
      (listName cap r name) := by
  by_cases hs : data.status ≠ .ok
  · rw [if_pos hs, listName, if_pos (h.status ▸ hs)]
    exact h
  rw [if_neg hs, listName, if_neg (h.status ▸ hs), putName_eq, h.nmemb, h.cap_eq, h.offset_eq]
  split_ifs with hfit
  · exact ⟨rfl, rfl, fun hnamed => h.nmemb ▸ h.bytes hnamed, rfl, rfl, h.before⟩
  have hok : r.1 = .ok := by simpa [h.status] using hs
  refine ⟨h.status.trans hok, ?_, fun hnamed => ?_, rfl, rfl, fun a n ha => ?_⟩
  · simp only [List.length_append, length_wireName]
    omega
  · have hname := hn hnamed
    have hb := h.bytes hnamed
    rw [h.nmemb] at hb
    have hlen : r.2.length + 1 + name.length = r.2.length + (wireName name).length := by
      rw [length_wireName]
      omega
    -- what was written before, and the name
    have hbefore : (writeName data.base (offset + r.2.length) name).read offset r.2.length =
        data.base.read offset r.2.length :=
      ByteMemory.read_congr fun i hi => writeName_of_not_mem _ hname (Or.inl (by omega))
    show (writeName data.base (offset + r.2.length) name).read offset
      (r.2.length + 1 + name.length) = _
    rw [hlen, ByteMemory.read_add, hbefore, hb, read_writeName _ _ hname]
  · refine (ByteMemory.read_congr fun i hi => ?_).trans (h.before a n ha)
    show reverseBytes _ (offset + r.2.length + 1) _ (a + i) = _
    rw [reverseBytes_of_lt (by omega), ByteMemory.write, if_neg (by omega), ByteMemory.write,
      if_neg (by omega)]

/-- A walk that writes the names it is given. -/
theorem foldl_lists {names : List (List UInt8)} (h : Lists named base offset cap data r)
    (hn : named → ∀ name ∈ names, IsName name) :
    Lists named base offset cap
      (names.foldl (fun data name => if data.status ≠ .ok then data else putName name data) data)
      (names.foldl (listName cap) r) := by
  induction names generalizing data r with
  | nil => exact h
  | cons name names ih =>
    exact ih (h.putName fun hnamed => hn hnamed name List.mem_cons_self)
      fun hnamed name' h' => hn hnamed name' (List.mem_cons_of_mem _ h')

/-- The loop over a list of keys stops where a walk would go on without writing. -/
theorem listKeys_eq (keys : List CacheKey) (data : ListData) (h : data.status = .ok) :
    listKeys keys data = keys.foldl
      (fun data name => if data.status ≠ .ok then data else putName name data) data := by
  have hstop (keys : List CacheKey) (data : ListData) (h : data.status ≠ .ok) :
      keys.foldl (fun data name => if data.status ≠ .ok then data else putName name data)
        data = data := by
    induction keys with
    | nil => rfl
    | cons key keys ih => rw [List.foldl_cons, if_pos h, ih]
  induction keys generalizing data with
  | nil => rfl
  | cons key keys ih =>
    rw [listKeys, List.foldl_cons, if_neg (not_not.mpr h)]
    split_ifs with hs
    · rw [hstop _ _ hs]
    · exact ih _ (not_not.mp hs)

/-- The tags that a walk compares with lie before the payload, where nothing is written. -/
theorem Lists.slice_bytes (h : Lists named base offset cap data r) {tag : Slice}
    (ht : tag.base + tag.nmemb ≤ offset) :
    tag.bytes data.base = tag.bytes base := h.before _ _ ht

/-- A walk over the entries that writes the keys of those without any of the tags. -/
theorem walk_lists {slices : List Slice} {entries : List CacheEntry}
    (h : Lists named base offset cap data r) (hs : ∀ tag ∈ slices, tag.base + tag.nmemb ≤ offset)
    (hn : named → ∀ e ∈ entries, IsName e.key) :
    Lists named base offset cap
      (entries.foldl (fun data e => (listNonMatchingCallback slices e data).2) data)
      (((entries.filter fun e => !((slices.map fun tag => tag.bytes base).any fun want =>
        e.tags.any fun have_ => want == have_)).map CacheEntry.key).foldl (listName cap) r) := by
  induction entries generalizing data r with
  | nil => exact h
  | cons e entries ih =>
    have hn' : named → ∀ e ∈ entries, IsName e.key :=
      fun hnamed e' h' => hn hnamed e' (List.mem_cons_of_mem _ h')
    have hany : (slices.any fun want => e.tags.any fun have_ => want.bytes data.base == have_) =
        (slices.map fun tag => tag.bytes base).any
          fun want => e.tags.any fun have_ => want == have_ := by
      rw [Bool.eq_iff_iff, List.any_map, List.any_eq_true, List.any_eq_true]
      refine exists_congr fun tag => and_congr_right fun ht => ?_
      simp only [Function.comp, h.slice_bytes (hs tag ht)]
    rw [List.foldl_cons, List.filter_cons, listNonMatchingCallback, hany]
    by_cases hm : (slices.map fun tag => tag.bytes base).any fun want =>
      e.tags.any fun have_ => want == have_
    · simp only [hm, if_true, Bool.not_true, Bool.false_eq_true, if_false]
      split_ifs
      · exact ih h hn'
      · exact ih h hn'
    · simp only [hm, Bool.not_false, if_true, Bool.false_eq_true, if_false, List.map_cons,
        List.foldl_cons]
      have hname : named → IsName e.key := fun hnamed => hn hnamed e List.mem_cons_self
      have hstep := h.putName hname
      refine ih ?_ hn'
      by_cases hst : data.status ≠ .ok
      · rwa [if_pos hst] at hstep ⊢
      · rw [if_neg hst] at hstep ⊢
        rwa [listAllKeysCallback, if_neg hst]

/-- Nothing is written outside the payload. -/
structure Confined (base : ByteMemory) (offset cap : ℕ) (data : ListData) : Prop where
  /-- Where the payload is. -/
  offset_eq : data.offset = offset
  /-- How much room there is. -/
  cap_eq : data.cap = cap
  /-- No more is written than there is room for. -/
  nmemb_le : data.nmemb ≤ cap
  /-- The other bytes are as they were. -/
  outside : ∀ a, a < offset ∨ offset + cap ≤ a → data.base a = base a

theorem confined_nil (base : ByteMemory) (offset cap : ℕ) :
    Confined base offset cap ⟨.ok, base, offset, 0, cap⟩ :=
  ⟨rfl, rfl, Nat.zero_le _, fun _ _ => rfl⟩

/-- Writing a name stays within the payload. -/
theorem Confined.putName (h : Confined base offset cap data) {name : List UInt8}
    (hn : IsName name) :
    Confined base offset cap (putName name data) := by
  rw [putName_eq, h.cap_eq]
  split_ifs with hfit
  · exact ⟨h.offset_eq, rfl, h.nmemb_le, h.outside⟩
  · refine ⟨h.offset_eq, rfl, by simp only; omega, fun a ha => ?_⟩
    have ho := h.offset_eq
    refine (writeName_of_not_mem _ hn ?_).trans (h.outside a ha)
    rw [length_wireName]
    omega

/-- So does a walk that may write the names it is given. -/
theorem foldl_confined {α : Type} {l : List α} {f : ListData → α → ListData} {name : α → List UInt8}
    (hf : ∀ data x, f data x = data ∨ f data x = putName (name x) data)
    (hn : ∀ x ∈ l, IsName (name x)) (h : Confined base offset cap data) :
    Confined base offset cap (l.foldl f data) := by
  induction l generalizing data with
  | nil => exact h
  | cons x l ih =>
    refine ih (fun y hy => hn y (List.mem_cons_of_mem _ hy)) ?_
    rcases hf data x with he | he
    · rw [he]
      exact h
    · rw [he]
      exact h.putName (hn x List.mem_cons_self)

/-- Nothing was written yet. -/
theorem lists_nil (named : Prop) (base : ByteMemory) (offset cap : ℕ) :
    Lists named base offset cap ⟨.ok, base, offset, 0, cap⟩ (.ok, []) :=
  ⟨rfl, rfl, fun _ => rfl, rfl, rfl, fun _ _ _ => rfl⟩

end Lists

end Cik

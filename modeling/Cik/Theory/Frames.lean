import Cik.Source.Persistence
import Mathlib.Algebra.Order.BigOperators.Group.List
import Mathlib.Algebra.Order.Ring.Nat

/-!
# Requests as the protocol has them

A request is a header of sixteen bytes, followed by what the header announces: a key,
tags with their lengths before them, a value. `Cmd` is what a well-formed request asks
for, `Cmd.body` what follows its header, and `Header` says which headers announce it
(the padding, and what the server does not look at, may be anything). The reading
functions of the server get back what was sent, and leave the rest of the stream
(`readRequestKey_spec`, `readTagsUsingPayloadBuffer_spec`).
-/

namespace Cik

open ByteOrder

/-- A key or a tag that can be sent: not empty, and its length fits a byte. -/
def IsName (name : List UInt8) : Prop := name ≠ [] ∧ name.length ≤ 255

/-- Tags that can be sent: their number fits a byte. -/
def AreTags (tags : List CacheTag) : Prop := tags.length ≤ 255 ∧ ∀ tag ∈ tags, IsName tag

instance : DecidablePred IsName := fun _ => inferInstanceAs (Decidable (_ ∧ _))

instance : DecidablePred AreTags := fun _ => inferInstanceAs (Decidable (_ ∧ _))

/-- What a well-formed request asks for. Keys and tags are in the order they are stored in. -/
inductive Cmd where
  /-- GET; `ignore` is `GET_FLAG_IGNORE_EXPIRES`. -/
  | get (key : CacheKey) (ignore : Bool)
  /-- SET. -/
  | set (key : CacheKey) (tags : List CacheTag) (value : CacheValue) (ttl : UInt32)
  /-- SET with `SET_FLAG_ONLY_TTL`. -/
  | setTtl (key : CacheKey) (ttl : UInt32)
  /-- DEL. -/
  | del (key : CacheKey)
  /-- CLR. -/
  | clr (mode : UInt8) (tags : List CacheTag)
  /-- LST. -/
  | lst (mode : UInt8) (tags : List CacheTag)
  /-- NFO; without a key it is about the server. -/
  | nfo (key : CacheKey)

/-- The parts of a request are ones that can be sent, and its mode is known. -/
def Cmd.WF : Cmd → Prop
  | get key _ => IsName key
  | set key tags value _ => IsName key ∧ AreTags tags ∧ value.length < 2 ^ 32
  | setTtl key _ => IsName key
  | del key => IsName key
  | clr mode tags => mode ≤ CLEAR_MODE_MATCH_ANY ∧ AreTags tags
  | lst mode tags => mode ≤ LIST_MODE_MATCH_ANY ∧ AreTags tags
  | nfo key => key.length ≤ 255

/-- Tags in a stream. -/
def wireTags (tags : List CacheTag) : List UInt8 :=
  tags.flatMap fun tag => UInt8.ofNat tag.length :: tag.reverse

/-- What follows the header of a request. -/
def Cmd.body : Cmd → List UInt8
  | get key _ => key.reverse
  | set key tags value _ => key.reverse ++ wireTags tags ++ value
  | setTtl key _ => key.reverse
  | del key => key.reverse
  | clr _ tags => wireTags tags
  | lst _ tags => wireTags tags
  | nfo key => key.reverse

/-- The operation of a request. -/
def Cmd.op : Cmd → UInt8
  | get .. => CMD_BYTE_GET
  | set .. => CMD_BYTE_SET
  | setTtl .. => CMD_BYTE_SET
  | del _ => CMD_BYTE_DEL
  | clr .. => CMD_BYTE_CLR
  | lst .. => CMD_BYTE_LST
  | nfo _ => CMD_BYTE_NFO

/-- The fields of a header that belong to its operation. -/
def Cmd.Fields (r : Request) : Cmd → Prop
  | get key ignore => r.gKlen.toNat = key.length ∧
  (ignore = true ↔ r.gFlags &&& GET_FLAG_IGNORE_EXPIRES ≠ 0)
  | set key tags value ttl => r.sKlen.toNat = key.length ∧ r.sNtags.toNat = tags.length ∧
      (ntohl r.sVlen).toNat = value.length ∧ ntohl r.sTtl = ttl ∧ r.sFlags &&& SET_FLAG_ONLY_TTL = 0
  | setTtl key ttl =>
    r.sKlen.toNat = key.length ∧ ntohl r.sTtl = ttl ∧ r.sFlags &&& SET_FLAG_ONLY_TTL ≠ 0
  | del key => r.dKlen.toNat = key.length
  | clr mode tags => r.cMode = mode ∧ r.cNtags.toNat = tags.length
  | lst mode tags => r.cMode = mode ∧ r.cNtags.toNat = tags.length
  | nfo key => r.nKlen.toNat = key.length

/-- The control bytes of a header are right. -/
def Request.HasControl (r : Request) : Prop :=
  r.bytes 0 = CONTROL_BYTE_1 ∧ r.bytes 1 = CONTROL_BYTE_2 ∧ r.bytes 2 = CONTROL_BYTE_3

theorem Request.not_hasControl {r : Request}
    (h : r.bytes 0 ≠ CONTROL_BYTE_1 ∨ r.bytes 1 ≠ CONTROL_BYTE_2 ∨ r.bytes 2 ≠ CONTROL_BYTE_3) :
    ¬ r.HasControl := by
  rintro ⟨h₀, h₁, h₂⟩
  rcases h with h | h | h
  · exact h h₀
  · exact h h₁
  · exact h h₂

/-- The header announces the request. -/
structure Header (r : Request) (c : Cmd) : Prop where
  /-- The control bytes. -/
  control : r.HasControl
  /-- The operation. -/
  op : r.op = c.op
  /-- The other fields. -/
  fields : c.Fields r

/-- The sixteen bytes of a header. -/
def Request.toBytes (r : Request) : List UInt8 := List.ofFn r.bytes

@[simp] theorem Request.length_toBytes (r : Request) : r.toBytes.length = 16 := by simp [toBytes]

theorem Request.overlay_toBytes (r r' : Request) : r'.overlay r.toBytes = r := by
  cases r with
  | mk bytes =>
    refine congrArg Request.mk (funext fun i => ?_)
    rw [toBytes, ← List.getElem_eq_getD (h := by simp), List.getElem_ofFn]

theorem Request.ofBytes_toBytes (r : Request) : Request.ofBytes r.toBytes = r := by
  cases r with
  | mk bytes =>
    refine congrArg Request.mk (funext fun i => ?_)
    rw [toBytes, ← List.getElem_eq_getD (h := by simp), List.getElem_ofFn]

/-- The header of a request, with zeros where anything may be. -/
def Cmd.headerBytes (c : Cmd) : List UInt8 :=
  [CONTROL_BYTE_1, CONTROL_BYTE_2, CONTROL_BYTE_3, c.op] ++
    match c with
    | get key ignore => [UInt8.ofNat key.length, if ignore then GET_FLAG_IGNORE_EXPIRES else 0]
    | set key tags value ttl =>
      [UInt8.ofNat key.length, UInt8.ofNat tags.length, SET_FLAG_NONE, 0] ++
        store32 (htonl (UInt32.ofNat value.length)) ++ store32 (htonl ttl)
    | setTtl key ttl =>
      [UInt8.ofNat key.length, 0, SET_FLAG_ONLY_TTL, 0] ++ store32 0 ++ store32 (htonl ttl)
    | del key => [UInt8.ofNat key.length]
    | clr mode tags => [mode, UInt8.ofNat tags.length]
    | lst mode tags => [mode, UInt8.ofNat tags.length]
    | nfo key => [UInt8.ofNat key.length]

/-- The header of a request. -/
def Cmd.request (c : Cmd) : Request := Request.ofBytes c.headerBytes

theorem toNat_ofNat_length {bs : List UInt8} (h : bs.length ≤ 255) :
    (UInt8.ofNat bs.length).toNat = bs.length := by
  rw [UInt8.toNat_ofNat']
  omega

/-- A number laid out in memory is read back. -/
theorem leNat_store32 (x : UInt32) : UInt32.ofNat (leNat (store32 x)) = x := by
  have hx : x.toNat < 256 ^ 4 := x.toNat_lt
  rw [store32, leNat_leBytes, Nat.mod_eq_of_lt hx, UInt32.ofNat_toNat]

/-- Every request has a header that announces it. -/
theorem Cmd.header_request {c : Cmd} (h : c.WF) : Header c.request c := by
  have h32 (x : UInt32) : ∃ b₀ b₁ b₂ b₃, store32 x = [b₀, b₁, b₂, b₃] ∧
      UInt32.ofNat (leNat [b₀, b₁, b₂, b₃]) = x :=
    ⟨_, _, _, _, rfl, leNat_store32 x⟩
  refine ⟨by cases c <;> exact ⟨rfl, rfl, rfl⟩, by cases c <;> rfl, ?_⟩
  cases c with
  | get key ignore =>
    refine ⟨toNat_ofNat_length h.2, ?_⟩
    cases ignore
    · exact iff_of_false (by decide) (by decide : ¬ (0 : UInt8) &&& GET_FLAG_IGNORE_EXPIRES ≠ 0)
    · exact iff_of_true rfl (by decide : GET_FLAG_IGNORE_EXPIRES &&& GET_FLAG_IGNORE_EXPIRES ≠ 0)
  | set key tags value ttl =>
    obtain ⟨hk, ht, hv⟩ := h
    obtain ⟨a₀, a₁, a₂, a₃, ha, ha'⟩ := h32 (htonl (UInt32.ofNat value.length))
    obtain ⟨b₀, b₁, b₂, b₃, hb, hb'⟩ := h32 (htonl ttl)
    have hlen : (UInt32.ofNat value.length).toNat = value.length := by
      rw [UInt32.toNat_ofNat']
      omega
    have hn : (UInt8.ofNat tags.length).toNat = tags.length := by
      rw [UInt8.toNat_ofNat']
      have := ht.1
      omega
    have hbytes : (Cmd.set key tags value ttl).headerBytes =
        [CONTROL_BYTE_1, CONTROL_BYTE_2, CONTROL_BYTE_3, CMD_BYTE_SET, UInt8.ofNat key.length,
          UInt8.ofNat tags.length, SET_FLAG_NONE, 0, a₀, a₁, a₂, a₃, b₀, b₁, b₂, b₃] := by
      simp only [headerBytes, ha, hb, op]
      rfl
    have hvl : (Cmd.set key tags value ttl).request.sVlen = htonl (UInt32.ofNat value.length) := by
      rw [request, hbytes]
      exact ha'
    have httl : (Cmd.set key tags value ttl).request.sTtl = htonl ttl := by
      rw [request, hbytes]
      exact hb'
    exact ⟨toNat_ofNat_length hk.2, hn, by rw [hvl, ntohl_htonl, hlen], by rw [httl, ntohl_htonl],
      (by decide : SET_FLAG_NONE &&& SET_FLAG_ONLY_TTL = 0)⟩
  | setTtl key ttl =>
    obtain ⟨b₀, b₁, b₂, b₃, hb, hb'⟩ := h32 (htonl ttl)
    have httl : (Cmd.setTtl key ttl).request.sTtl = htonl ttl := by
      rw [request, headerBytes, hb]
      exact hb'
    exact ⟨toNat_ofNat_length h.2, by rw [httl, ntohl_htonl],
      (by decide : SET_FLAG_ONLY_TTL &&& SET_FLAG_ONLY_TTL ≠ 0)⟩
  | del key => exact toNat_ofNat_length h.2
  | clr mode tags =>
    refine ⟨rfl, ?_⟩
    have := h.2.1
    change (UInt8.ofNat tags.length).toNat = tags.length
    rw [UInt8.toNat_ofNat']
    omega
  | lst mode tags =>
    refine ⟨rfl, ?_⟩
    have := h.2.1
    change (UInt8.ofNat tags.length).toNat = tags.length
    rw [UInt8.toNat_ofNat']
    omega
  | nfo key => exact toNat_ofNat_length h

/-! ### Sizes -/

/-- The size of an entry with all its parts. -/
def exactSize (key : CacheKey) (tags : List CacheTag) (value : CacheValue) : ℕ :=
  sizeofCacheEntry + sizeofCacheTag * tags.length + (tags.map List.length).sum +
    key.length + value.length

/-- A SET makes an entry of a size below `2 ^ 32`. -/
def Cmd.Sized : Cmd → Prop
  | set key tags value _ => exactSize key tags value < 2 ^ 32
  | _ => True

/-- What a SET asks `reserve_memory` for. -/
def requestSize (key : CacheKey) (tags : List CacheTag) (value : CacheValue) : UInt32 :=
  entrySize
    (setTotalSize (tags.map List.length) (UInt8.ofNat key.length) (UInt32.ofNat value.length))

theorem sum_length_le {tags : List CacheTag} (h : AreTags tags) :
    (tags.map List.length).sum ≤ 65025 := by
  have hall : ∀ n ∈ tags.map List.length, n ≤ 255 := by
    intro n hn
    obtain ⟨tag, ht, rfl⟩ := List.mem_map.mp hn
    exact (h.2 tag ht).2
  have := List.sum_le_card_nsmul _ _ hall
  have hl := h.1
  simp only [List.length_map, Nat.nsmul_eq_mul] at this
  have : tags.length * 255 ≤ 255 * 255 := Nat.mul_le_mul_right 255 hl
  omega

theorem foldl_add_ofNat (lengths : List ℕ) (x : UInt32) :
    (lengths.foldl (fun tlen n => tlen + UInt32.ofNat n) x).toNat =
    (x.toNat + lengths.sum) % 2 ^ 32 := by
  induction lengths generalizing x with
  | nil =>
    have := x.toNat_lt
    simp only [List.foldl_nil, List.sum_nil, Nat.add_zero]
    omega
  | cons n lengths ih =>
    rw [List.foldl_cons, ih, UInt32.toNat_add, UInt32.toNat_ofNat', List.sum_cons]
    omega

/-- The three sums of a SET, in `u32`, in `size_t` and in `u32` again, come to the size modulo
`2 ^ 32`. -/
theorem entrySize_setTotalSize (lengths : List ℕ) (klen : UInt8) (vlen : UInt32) :
    (entrySize (setTotalSize lengths klen vlen)).toNat =
      (sizeofCacheEntry + sizeofCacheTag * lengths.length + lengths.sum + klen.toNat + vlen.toNat) %
      2 ^ 32 := by
  have he : sizeofCacheEntry = 72 := rfl
  have h72 : (UInt64.ofNat sizeofCacheEntry).toNat = 72 := rfl
  have hv := vlen.toNat_lt
  simp only [entrySize, setTotalSize, UInt64.toNat_toUInt32, UInt64.toNat_add,
    UInt32.toNat_toUInt64, UInt32.toNat_add, foldl_add_ofNat, UInt32.toNat_ofNat',
    UInt8.toNat_toUInt32, h72]
  rw [he]
  omega

theorem requestSize_toNat {key : CacheKey} {tags : List CacheTag} {value : CacheValue}
    (hk : IsName key) (hv : value.length < 2 ^ 32) :
    (requestSize key tags value).toNat = exactSize key tags value % 2 ^ 32 := by
  have hl := hk.2
  have h₁ : (UInt8.ofNat key.length).toNat = key.length := by rw [UInt8.toNat_ofNat']; omega
  have h₂ : (UInt32.ofNat value.length).toNat = value.length := by rw [UInt32.toNat_ofNat']; omega
  rw [requestSize, entrySize_setTotalSize, h₁, h₂, exactSize]
  simp

/-! ### Reading what was sent -/

section Reading

variable {c : Client} {rest : List UInt8}

theorem readRequestPayload_append {bs : List UInt8} (hin : c.input = bs ++ rest) {n : ℕ}
    (hn : n = bs.length) :
    ∃ reads, readRequestPayload c n = (.ok, bs, c.advance n reads) := by
  subst hn
  obtain ⟨reads, h⟩ := readRequestPayload_of_le (c := c) (n := bs.length) (by simp [hin])
  exact ⟨reads, h.trans (by rw [hin, List.take_left])⟩

theorem Client.advance_input {bs : List UInt8} (hin : c.input = bs ++ rest) {n : ℕ}
    (hn : n = bs.length) (reads : ℕ → ℕ) : (c.advance n reads).input = rest := by
  subst hn
  simp [Client.advance, hin]

@[simp] theorem Client.advance_advance (n k : ℕ) (reads reads' : ℕ → ℕ) :
    (c.advance n reads).advance k reads' = c.advance (n + k) reads' := by
  simp [Client.advance]

theorem toNat_toUInt32_pos {n : UInt8} (h : 0 < n.toNat) : 0 < n.toUInt32.toNat := by simpa using h

/-- A key is read as it is to be stored. -/
theorem readRequestKey_spec {key : CacheKey} (hk : IsName key) (hin : c.input = key.reverse ++ rest)
    {klen : UInt8} (hl : klen.toNat = key.length) :
    ∃ reads, readRequestKey c klen = (.ok, key, c.advance key.length reads) := by
  obtain ⟨reads, h⟩ := readRequestPayload_append hin (n := klen.toNat) (by simp [hl])
  have hpos : 0 < klen.toNat := hl ▸ List.length_pos_iff.mpr hk.1
  have hr :=
    read_reverseBytes (ByteMemory.write (fun _ => 0) 0 key.reverse) 0 (toNat_toUInt32_pos hpos)
  have hw := ByteMemory.read_write_self (fun _ => 0) 0 key.reverse
  rw [List.length_reverse] at hw
  refine ⟨reads, ?_⟩
  rw [readRequestKey, h]
  simp only [UInt8.toNat_toUInt32, hl] at hr ⊢
  rw [hr, hw, List.reverse_reverse]

/-- A tag that was read and turned round is as it is to be stored; what lies before it is as it was,
and if it is not empty, so is what lies behind it. -/
theorem reverseBytes_tag {tag : CacheTag} (hlen : tag.length ≤ 255) (base : ByteMemory) (buffer : ℕ)
    {base₁ : ByteMemory}
    (hbase : base₁ = reverseBytes (base.write buffer tag.reverse) buffer
      (UInt8.ofNat tag.length).toUInt32) :
    base₁.read buffer tag.length = tag ∧ (∀ a < buffer, base₁ a = base a) ∧
      (tag ≠ [] → ∀ a, buffer + tag.length ≤ a → base₁ a = base a) := by
  have hb : (UInt8.ofNat tag.length).toNat = tag.length := by rw [UInt8.toNat_ofNat']; omega
  have hpos (hne : tag ≠ []) : 0 < (UInt8.ofNat tag.length).toUInt32.toNat := by
    rw [UInt8.toNat_toUInt32, hb]
    exact List.length_pos_iff.mpr hne
  subst hbase
  refine ⟨?_, fun a ha => ?_, fun hne a ha => ?_⟩
  · rcases eq_or_ne tag [] with rfl | hne
    · rfl
    have hr := read_reverseBytes (base.write buffer tag.reverse) buffer (hpos hne)
    have hw := ByteMemory.read_write_self base buffer tag.reverse
    simp only [UInt8.toNat_toUInt32, hb, List.length_reverse] at hr hw
    rw [hr, hw, List.reverse_reverse]
  · rw [reverseBytes_of_lt ha, ByteMemory.write, if_neg (by omega)]
  · rw [reverseBytes_apply _ _ _ (hpos hne), UInt8.toNat_toUInt32, hb, if_neg (by omega),
      ByteMemory.write, List.length_reverse, if_neg (by omega)]

/-- The loop over the tags reads them as they are to be stored, one behind the other, and does not
touch what lies before its buffer or, if none is empty, behind it. -/
theorem readTagsLoop_spec {tags : List CacheTag} (ht : ∀ tag ∈ tags, tag.length ≤ 255)
    (hin : c.input = wireTags tags ++ rest) (base : ByteMemory) (buffer : ℕ) {cap : ℕ}
    (hcap : (tags.map List.length).sum ≤ cap) (acc : List Slice) :
    ∃ reads slices base',
      readTagsLoop tags.length c base buffer cap acc =
        ⟨.ok, acc ++ slices, c.advance (wireTags tags).length reads, base',
          cap - (tags.map List.length).sum⟩ ∧
      slices.map Slice.nmemb = tags.map List.length ∧
      (slices.map fun tag => tag.bytes base') = tags ∧
      (∀ tag ∈ slices, tag.base + tag.nmemb ≤ buffer + (tags.map List.length).sum) ∧
      (∀ n ≤ buffer, ∀ a, a + n ≤ buffer → base'.read a n = base.read a n) ∧
      ((∀ tag ∈ tags, tag ≠ []) → ∀ a, buffer + cap ≤ a → base' a = base a) := by
  induction tags generalizing c base buffer cap acc with
  | nil => exact ⟨c.reads, [], base, by simp [readTagsLoop, wireTags, Client.advance]⟩
  | cons tag tags ih =>
    have hlen := ht tag List.mem_cons_self
    simp only [List.map_cons, List.sum_cons] at hcap
    have hw :
        wireTags (tag :: tags) = [UInt8.ofNat tag.length] ++ (tag.reverse ++ wireTags tags) := by
      simp [wireTags]
    have hwl : (wireTags (tag :: tags)).length = 1 + (tag.length + (wireTags tags).length) := by
      rw [hw]
      simp only [List.length_append, List.length_singleton, List.length_reverse]
    have hb : (UInt8.ofNat tag.length).toNat = tag.length := by rw [UInt8.toNat_ofNat']; omega
    rw [hw, List.append_assoc, List.append_assoc] at hin
    -- the length, the tag, the other tags
    obtain ⟨r₁, h₁⟩ := readRequestPayload_append hin (n := 1) rfl
    have hin₁ := Client.advance_input hin (n := 1) rfl r₁
    obtain ⟨r₂, h₂⟩ := readRequestPayload_append hin₁ (n := tag.length) (by simp)
    have hin₂ := Client.advance_input hin₁ (n := tag.length) (by simp) r₂
    let base₁ :=
      reverseBytes (base.write buffer tag.reverse) buffer (UInt8.ofNat tag.length).toUInt32
    obtain ⟨hread, hbefore, hbehind⟩ := @reverseBytes_tag tag hlen base buffer base₁ rfl
    obtain ⟨r₃, slices, base', h₃, hn, hs, hle, hfr, hbeyond⟩ :=
      ih (fun t h => ht t (List.mem_cons_of_mem _ h)) hin₂ base₁ (buffer + tag.length)
        (by omega : _ ≤ cap - tag.length) (acc ++ [⟨buffer, tag.length⟩])
    refine ⟨r₃, ⟨buffer, tag.length⟩ :: slices, base', ?_, by simp [hn], ?_, ?_, ?_, ?_⟩
    · simp only [List.length_cons, readTagsLoop, h₁, List.headD_cons, hb]
      rw [if_neg (by omega)]
      simp only [h₂]
      refine h₃.trans ?_
      rw [Client.advance_advance, Client.advance_advance, hwl, List.append_assoc,
        List.singleton_append, List.map_cons, List.sum_cons, Nat.sub_sub]
    · rw [List.map_cons, hs, Slice.bytes, hfr tag.length (by omega) buffer (by omega), hread]
    · intro t ht
      rw [List.map_cons, List.sum_cons, ← Nat.add_assoc]
      rcases List.mem_cons.mp ht with rfl | ht
      · exact Nat.le_add_right _ _
      · exact hle t ht
    · intro n hn a ha
      rw [hfr n (by omega) a (by omega)]
      exact ByteMemory.read_congr fun i hi => hbefore (a + i) (by omega)
    · intro hne a ha
      rw [hbeyond (fun t ht => hne t (List.mem_cons_of_mem _ ht)) a (by omega)]
      exact hbehind (hne tag List.mem_cons_self) a (by omega)

/-- Tags that fit the buffer are read as they are to be stored, and nothing is written behind it. -/
theorem readTagsUsingPayloadBuffer_of_le {ctx : Ctx} {tags : List CacheTag}
    (ht : ∀ tag ∈ tags, tag.length ≤ 255) (hin : ctx.client.input = wireTags tags ++ rest)
    (hcap : (tags.map List.length).sum ≤ ctx.payload_buffer.cap) {ntags : UInt8}
    (hn : ntags.toNat = tags.length) :
    ∃ reads slices base,
      readTagsUsingPayloadBuffer ctx ntags =
        (.ok, slices, ⟨ctx.store, ctx.client.advance (wireTags tags).length reads,
          ⟨base, (tags.map List.length).sum, ctx.payload_buffer.cap⟩⟩) ∧
      slices.map Slice.nmemb = tags.map List.length ∧
      (slices.map fun tag => tag.bytes base) = tags ∧
      (∀ tag ∈ slices, tag.base + tag.nmemb ≤ (tags.map List.length).sum) ∧
      ((∀ tag ∈ tags, tag ≠ []) → ∀ a, ctx.payload_buffer.cap ≤ a →
        base a = ctx.payload_buffer.base a) := by
  obtain ⟨reads, slices, base, h, hm, hs, hle, -, hbeyond⟩ :=
    readTagsLoop_spec ht hin ctx.payload_buffer.base 0 hcap []
  refine ⟨reads, slices, base, ?_, hm, hs,
    by simpa using hle, fun hne a ha => hbeyond hne a (by omega)⟩
  rw [readTagsUsingPayloadBuffer]
  simp only [hn, h, List.nil_append, if_true]
  rw [Nat.sub_sub_self hcap]

/-- Tags are read as they are to be stored. -/
theorem readTagsUsingPayloadBuffer_spec {ctx : Ctx} {tags : List CacheTag} (ht : AreTags tags)
    (hin : ctx.client.input = wireTags tags ++ rest)
    (hcap : ctx.payload_buffer.cap = MAX_BUCKET_SIZE) {ntags : UInt8}
    (hn : ntags.toNat = tags.length) :
    ∃ reads slices base,
      readTagsUsingPayloadBuffer ctx ntags =
        (.ok, slices, ⟨ctx.store, ctx.client.advance (wireTags tags).length reads,
          ⟨base, (tags.map List.length).sum, MAX_BUCKET_SIZE⟩⟩) ∧
      slices.map Slice.nmemb = tags.map List.length ∧
      (slices.map fun tag => tag.bytes base) = tags ∧
      ∀ tag ∈ slices, tag.base + tag.nmemb ≤ (tags.map List.length).sum := by
  have hsum := sum_length_le ht
  have hmax : MAX_BUCKET_SIZE = 0x800000 := rfl
  obtain ⟨reads, slices, base, h, hm, hs, hle, -⟩ :=
    readTagsUsingPayloadBuffer_of_le (fun tag h => (ht.2 tag h).2) hin (by omega) hn
  rw [hcap] at h
  exact ⟨reads, slices, base, h, hm, hs, hle⟩

end Reading

end Cik

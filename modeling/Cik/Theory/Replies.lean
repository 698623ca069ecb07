import Cik.Theory.TagIndex

/-!
# What is sent for a LST and an NFO

A client reads the names of a listing back from their lengths (`decodeNames`), and the
times and tags of an entry from an NFO (`decodeEntryInfo`). A LST writes as many of the
names it selects as fit, and nothing outside the room it has (`lst_reply`); an NFO about a
key writes what the entry has, and nothing is lost on the way through two `u32`s
(`nfo_reply`).
-/

namespace Cik

open ByteOrder

/-! ### Names -/

/-- The names in a payload: each has its length before it, and the last one ends it. -/
def decodeNamesLoop : ℕ → List UInt8 → Option (List (List UInt8))
  | _, [] => some []
  | 0, _ :: _ => none
  | fuel + 1, n :: bs =>
    if bs.length < n.toNat then none
    else (decodeNamesLoop fuel (bs.drop n.toNat)).map fun names => bs.take n.toNat :: names

/-- `decodeNamesLoop`, which reads a byte at least in each round. -/
def decodeNames (bs : List UInt8) : Option (List (List UInt8)) := decodeNamesLoop bs.length bs

theorem decodeNamesLoop_flatMap {names : List (List UInt8)}
    (hn : ∀ name ∈ names, name.length ≤ 255) {fuel : ℕ} (hf : names.length ≤ fuel) :
    decodeNamesLoop fuel (names.flatMap wireName) = some (names.map List.reverse) := by
  induction names generalizing fuel with
  | nil => cases fuel <;> rfl
  | cons name names ih =>
    obtain ⟨fuel, rfl⟩ :=
      Nat.exists_eq_succ_of_ne_zero (Nat.ne_of_gt (Nat.lt_of_lt_of_le (Nat.succ_pos _) hf))
    have hlen : (UInt8.ofNat name.length).toNat = name.reverse.length := by
      rw [toNat_ofNat_length (hn name List.mem_cons_self), List.length_reverse]
    have hrest := ih (fun name h => hn name (List.mem_cons_of_mem _ h)) (Nat.le_of_succ_le_succ hf)
    rw [List.flatMap_cons, wireName, List.cons_append, decodeNamesLoop, hlen, List.take_left,
      List.drop_left, hrest, if_neg (by rw [List.length_append]; omega)]
    rfl

/-- A client reads names back in its own byte order. -/
theorem decodeNames_flatMap {names : List (List UInt8)} (hn : ∀ name ∈ names, name.length ≤ 255) :
    decodeNames (names.flatMap wireName) = some (names.map List.reverse) := by
  refine decodeNamesLoop_flatMap hn ?_
  rw [length_flatMap_wireName]
  have hle : (names.map fun _ => 1).sum ≤ wireLength names := by
    refine List.sum_le_sum fun name _ => ?_
    omega
  rw [List.map_const', List.sum_replicate] at hle
  exact Nat.le_trans (Nat.le_of_eq (Nat.mul_one _).symm) hle

/-- The longest of the prefixes that fit. -/
structure LongestFitting (room : ℕ) (names fit : List (List UInt8)) : Prop where
  /-- It is a prefix. -/
  initial : fit <+: names
  /-- It fits. -/
  fits : wireLength fit ≤ room
  /-- The others that fit are no longer. -/
  longest : ∀ l, l <+: names → wireLength l ≤ room → l.length ≤ fit.length

theorem wireLength_le_of_prefix {l names : List (List UInt8)} (h : l <+: names) :
    wireLength l ≤ wireLength names := by
  obtain ⟨rest, rfl⟩ := h
  rw [wireLength, wireLength, List.map_append, List.sum_append]
  exact Nat.le_add_right _ _

/-- The first names, as many as fit one after the other. -/
theorem longestFitting_take {room k : ℕ} {names : List (List UInt8)} (hk : k ≤ names.length)
    (hfits : wireLength (names.take k) ≤ room)
    (hend : k = names.length ∨ room < wireLength (names.take (k + 1))) :
    LongestFitting room names (names.take k) where
  initial := List.take_prefix k names
  fits := hfits
  longest := by
    intro l hl hroom
    rw [List.length_take_of_le hk]
    rcases hend with rfl | hover
    · exact hl.length_le
    · by_contra hlong
      have hpre : names.take (k + 1) <+: l :=
        List.prefix_of_prefix_length_le (List.take_prefix _ _) hl (by rw [List.length_take]; omega)
      have hmono := wireLength_le_of_prefix hpre
      omega

/-- A listing is the longest of the prefixes that fit, and its status tells whether these are
all. -/
theorem listing_longest (room : ℕ) (names : List (List UInt8)) :
    ∃ fit, LongestFitting room names fit ∧
      listing room names = (if fit = names then .ok else .outOfMemory, fit.flatMap wireName) := by
  obtain ⟨k, hk, hbytes, hle, hend⟩ := @foldl_listName_eq_take room names [] (Nat.zero_le _)
  rw [List.length_nil, Nat.zero_add] at hle hend
  refine ⟨names.take k, longestFitting_take hk hle ?_, Prod.ext ?_ hbytes⟩
  · exact hend.imp (fun h => h.1) fun h => h.2.2
  · rcases hend with ⟨rfl, hok⟩ | ⟨hlt, hcut, -⟩
    · rw [if_pos (List.take_length ..)]
      exact hok
    · rw [if_neg fun he =>
        by simpa [Nat.min_eq_left hk, Nat.ne_of_lt hlt] using congrArg List.length he]
      exact hcut

/-! ### LST -/

/-- All keys and tags in the store can be sent. -/
structure Store.Named (s : Store) : Prop where
  /-- The keys of the entries. -/
  keys : ∀ e ∈ s.entries, IsName e.key
  /-- The tags that have keys, and these keys. -/
  index : ∀ tag key, s.tags.HasKey tag key → IsName tag ∧ IsName key

theorem Store.Named.listNames {s : Store} (h : s.Named) {mode : UInt8}
    (hmode : mode ≤ LIST_MODE_MATCH_ANY) (tags : List CacheTag) : ∀ name ∈ s.listNames mode tags,
    IsName name := by
  intro name hn
  have hcases : mode = LIST_MODE_ALL_KEYS ∨ mode = LIST_MODE_ALL_TAGS ∨
    mode = LIST_MODE_MATCH_NONE ∨
      mode = LIST_MODE_MATCH_ALL ∨ mode = LIST_MODE_MATCH_ANY := mode_cases hmode
  rcases hcases with rfl | rfl | rfl | rfl | rfl
  · rw [Store.listNames, if_pos rfl] at hn
    obtain ⟨e, he, rfl⟩ := List.mem_map.mp hn
    exact h.keys e he
  · rw [listNames_allTags, TagTree.usedTags, mem_walked_tags_iff] at hn
    obtain ⟨key, hk⟩ := hn
    exact (h.index name key hk).1
  · rw [listNames_matchNone] at hn
    obtain ⟨e, he, rfl⟩ := List.mem_map.mp hn
    exact h.keys e (List.mem_filter.mp he).1
  · rw [listNames_matchAll, mem_getKeysMatchingAllTags] at hn
    obtain ⟨hne, hall⟩ := hn
    obtain ⟨tag, ht⟩ := List.exists_mem_of_ne_nil _ hne
    exact (h.index tag name (hall tag ht)).2
  · rw [listNames_matchAny, mem_getKeysMatchingAnyTag] at hn
    obtain ⟨tag, -, hk⟩ := hn
    exact (h.index tag name hk).2

/-- What holds when the handler of a LST returns that was to list `names` and has listed those of
`fit`: `payload` is what `*response_payload` points to, `slices` are the tags it read. -/
structure Handled.Listed (h : Handled) (ctx : Ctx) (mode : UInt8) (tags : List CacheTag)
    (slices : List Slice) (payload : ListData) (names fit : List (List UInt8)) : Prop where
  /-- The status tells whether these are all. -/
  status : h.status = if fit = names then .ok else .outOfMemory
  /-- The bytes of the payload are in the worker's buffer. -/
  base : h.ctx.payload_buffer.base = payload.base
  /-- The payload is the buffer, from its beginning on, unless it is behind the tags. -/
  pointer : if mode = LIST_MODE_MATCH_NONE then
      h.response_payload = .altPayload ∧ payload.offset = (tags.map List.length).sum
    else h.response_payload = .payloadBuffer ∧ payload.offset = 0 ∧
    h.ctx.payload_buffer.nmemb = payload.nmemb
  /-- It is the names with their lengths, in the client's byte order. -/
  bytes : payload.base.read payload.offset payload.nmemb = fit.flatMap wireName
  /-- They can be read back. -/
  decoded :
    decodeNames (payload.base.read payload.offset payload.nmemb) = some (fit.map List.reverse)
  /-- It ends in the buffer. -/
  ends : payload.offset + payload.nmemb ≤ ctx.payload_buffer.cap
  /-- Nothing is written behind the buffer. -/
  beyond : ∀ a, ctx.payload_buffer.cap ≤ a → h.ctx.payload_buffer.base a = ctx.payload_buffer.base a
  /-- The tags are as they were read, where they are compared with those of the entries. -/
  intact : mode = LIST_MODE_MATCH_NONE → (slices.map fun tag => tag.bytes payload.base) = tags

/-- The payload of a LST is the longest prefix that fits of the names it selects. -/
theorem lst_reply {ctx : Ctx} {r : Request} {tags : List CacheTag} {rest : List UInt8}
    (hmode : r.cMode ≤ LIST_MODE_MATCH_ANY) (ht : AreTags tags) (hn : r.cNtags.toNat = tags.length)
    (hin : ctx.client.input = wireTags tags ++ rest)
    (hcap : (tags.map List.length).sum ≤ ctx.payload_buffer.cap) (hs : ctx.store.Named) :
    ∃ slices ctx' fit, readTagsUsingPayloadBuffer ctx r.cNtags = (.ok, slices, ctx') ∧
      LongestFitting
        (if r.cMode = LIST_MODE_MATCH_NONE then ctx.payload_buffer.cap - (tags.map List.length).sum
          else ctx.payload_buffer.cap) (ctx.store.listNames r.cMode tags) fit ∧
      (handleLstRequest ctx r).Listed ctx r.cMode tags slices (lstPayload ctx' slices r.cMode)
        (ctx.store.listNames r.cMode tags) fit := by
  obtain ⟨slices, ctx', h, hstore, hnmemb, hcap', hb, hle, hbeyond⟩ : ∃ slices ctx',
      readTagsUsingPayloadBuffer ctx r.cNtags = (.ok, slices, ctx') ∧ ctx'.store = ctx.store ∧
        ctx'.payload_buffer.nmemb = (tags.map List.length).sum ∧
        ctx'.payload_buffer.cap = ctx.payload_buffer.cap ∧
        (slices.map fun tag => tag.bytes ctx'.payload_buffer.base) = tags ∧
        (∀ tag ∈ slices, tag.base + tag.nmemb ≤ ctx'.payload_buffer.nmemb) ∧
        ∀ a, ctx.payload_buffer.cap ≤ a →
        ctx'.payload_buffer.base a = ctx.payload_buffer.base a := by
    obtain ⟨reads, slices, base, h, -, hb, hle, hbeyond⟩ :=
      readTagsUsingPayloadBuffer_of_le (fun tag h => (ht.2 tag h).2) hin hcap hn
    exact ⟨slices, _, h, rfl, rfl, rfl, hb, hle, hbeyond fun tag h => (ht.2 tag h).1⟩
  have hnames := hs.listNames hmode tags
  rw [← hb, ← hstore] at hnames
  have hkeys : ∀ e ∈ ctx'.store.entries, IsName e.key := hstore ▸ hs.keys
  have hl :=
    @lstPayload_lists ctx' True slices r.cMode hmode hle (fun _ => by exact hnames) fun _ _ => hkeys
  have hc := lstPayload_confined hmode hnames fun _ => hkeys
  rw [hb, hstore] at hl
  obtain ⟨fit, hfit, heq⟩ :=
    listing_longest (lstRoom ctx'.payload_buffer r.cMode) (ctx.store.listNames r.cMode tags)
  rw [heq] at hl
  have hbytes := hl.bytes trivial
  have hoffset := hl.offset_eq
  have hle' : lstOffset ctx'.payload_buffer r.cMode + lstRoom ctx'.payload_buffer r.cMode ≤
      ctx.payload_buffer.cap := by
    rw [lstOffset, lstRoom, hnmemb, hcap']
    split_ifs <;> omega
  rw [hoffset.symm] at hbytes
  refine ⟨slices, ctx', fit, h, ?_, ?_⟩
  · rwa [lstRoom, hnmemb, hcap'] at hfit
  · rw [handleLstRequest_eq h hmode]
    refine ⟨hl.status, rfl, ?_, hbytes, ?_, ?_, fun a ha => ?_, fun hm => ?_⟩
    · rw [hoffset, lstOffset, hnmemb]
      split_ifs
      · exact ⟨rfl, rfl⟩
      · exact ⟨rfl, rfl, rfl⟩
    · rw [hbytes]
      exact decodeNames_flatMap fun name hname =>
        ((hs.listNames hmode tags) name (hfit.initial.subset hname)).2
    · have hroom := hc.nmemb_le
      omega
    · exact (hc.outside a (Or.inr (by omega))).trans (hbeyond a ha)
    · rw [hm, lstOffset, if_pos rfl] at hl
      rw [← hb]
      refine List.map_congr_left fun tag htag => ?_
      rw [hm]
      exact hl.slice_bytes (hle tag htag)

/-- In a sound store all names can be sent. -/
theorem Store.IndexExact.named {s : Store} (h : s.IndexExact) (hwf : s.All fun _ e => e.WF) :
    s.Named where
  keys := by
    intro e he
    obtain ⟨i, pos, hslot⟩ := mem_entries_iff.mp he
    exact (hwf i pos e hslot).key
  index := by
    intro tag key hk
    obtain ⟨e, hc, ht⟩ := (h tag key).mp hk
    exact ⟨(hwf.current hc).tags.2 tag ht, Store.current_key hc ▸ (hwf.current hc).key⟩

/-- A listing of the keys without the tag `9`, in a buffer that has just enough room. -/
theorem lst_reply_exact : ∃ s : Store,
    Served.Step Store.init (.alone (setOf entryOld) ⟨by decide, by decide, by decide⟩ startEnv) s ∧
      ∃ slices ctx' fit,
        readTagsUsingPayloadBuffer ⟨s, openFile (wireTags [[0x39]]), ⟨fun _ => 0, 0, 4⟩⟩
          (Cmd.lst LIST_MODE_MATCH_NONE [[0x39]]).request.cNtags = (.ok, slices, ctx') ∧
        LongestFitting 3 (s.listNames LIST_MODE_MATCH_NONE [[0x39]]) fit ∧
        (handleLstRequest ⟨s, openFile (wireTags [[0x39]]), ⟨fun _ => 0, 0, 4⟩⟩
          (Cmd.lst LIST_MODE_MATCH_NONE [[0x39]]).request).Listed
            ⟨s, openFile (wireTags [[0x39]]), ⟨fun _ => 0, 0, 4⟩⟩ LIST_MODE_MATCH_NONE
              [[0x39]] slices
            (lstPayload ctx' slices LIST_MODE_MATCH_NONE)
              (s.listNames LIST_MODE_MATCH_NONE [[0x39]]) fit := by
  have hplace : (setOf entryOld).InPlace Store.init :=
    noHoleBefore_of_unbound (Store.current_init keyK)
  have hsized : (setOf entryOld).Sized := (by decide : exactSize keyK [[0x31]] [0x6F] < 2 ^ 32)
  have hstep :=
    Served.step_exec (.alone (setOf entryOld) ⟨by decide, by decide, by decide⟩ startEnv) Store.init
  obtain ⟨hsound, hwf⟩ := sound_of_orderly (.cons ⟨⟨hplace, hsized⟩, hstep⟩ (.nil _)) sound_init_wf
  refine ⟨_, hstep, ?_⟩
  exact @lst_reply ⟨_, openFile (wireTags [[0x39]]), ⟨fun _ => 0, 0, 4⟩⟩
    (Cmd.lst LIST_MODE_MATCH_NONE [[0x39]]).request [[0x39]] [] (by decide) (by decide)
    (by decide) rfl (by decide) (hsound.exact.named hwf)

/-! ### NFO -/

/-- A signed number of 64 bits, most significant byte first. -/
def decodeTime (bs : List UInt8) : ℤ :=
  if beNat bs < 2 ^ 63 then beNat bs else (beNat bs : ℤ) - 2 ^ 64

/-- What an NFO about a key tells: when the entry expires, when it was made, and its tags. -/
def decodeEntryInfo (bs : List UInt8) : Option (ℤ × ℤ × List CacheTag) :=
  if bs.length < 16 then none
  else (decodeNames (bs.drop 16)).map fun tags =>
    (decodeTime (bs.take 8), decodeTime ((bs.drop 8).take 8), tags)

/-- A number that `time_t` can hold. -/
def InTime (x : ℤ) : Prop := -2 ^ 63 ≤ x ∧ x < 2 ^ 63

instance : DecidablePred InTime := fun _ => inferInstanceAs (Decidable (_ ∧ _))

theorem toNat_toU32 (x : ℤ) : (toU32 x).toNat = (x % 2 ^ 32).toNat := by
  have hlt : (x % 2 ^ 32).toNat < 2 ^ 32 := by omega
  rw [toU32, UInt32.toNat_ofNat_of_lt' hlt]

theorem toNat_htonl (x : UInt32) : (htonl x).toNat = swapBytes 4 x.toNat :=
  UInt32.toNat_ofNat_of_lt' (swapBytes_lt 4 x.toNat)

/-- The two halves of a number, turned round and exchanged. -/
theorem toNat_htonll (x : ℤ) : (htonll x).toNat =
    swapBytes 4 (x % 2 ^ 64).toNat * 256 ^ 4 + swapBytes 4 ((x % 2 ^ 64).toNat / 256 ^ 4) := by
  have hlow : (x % 2 ^ 32).toNat = (x % 2 ^ 64).toNat % 256 ^ 4 := by omega
  have hhigh : ((x >>> (32 : ℕ)) % 2 ^ 32).toNat = (x % 2 ^ 64).toNat / 256 ^ 4 := by
    rw [Int.shiftRight_eq_div_pow]
    omega
  have hlt := swapBytes_lt 4 ((x % 2 ^ 64).toNat / 256 ^ 4)
  have hswap : swapBytes 4 ((x % 2 ^ 64).toNat % 256 ^ 4) = swapBytes 4 (x % 2 ^ 64).toNat := by
    rw [swapBytes, leBytes_mod, swapBytes]
  have hlt' := swapBytes_lt 4 (x % 2 ^ 64).toNat
  have h32 : (32 : UInt64).toNat % 64 = 32 := rfl
  have hpow : (2 : ℕ) ^ 32 = 256 ^ 4 := rfl
  rw [htonll, UInt64.toNat_or, UInt64.toNat_shiftLeft, UInt32.toNat_toUInt64,
    UInt32.toNat_toUInt64, toNat_htonl, toNat_htonl, toNat_toU32, toNat_toU32, hlow, hhigh, hswap,
    h32, Nat.mod_eq_of_lt (by rw [Nat.shiftLeft_eq]; omega), ← Nat.shiftLeft_add_eq_or_of_lt
      (by omega), Nat.shiftLeft_eq, hpow]

/-- What is stored is the number with its most significant byte first. -/
theorem store64_htonll (x : ℤ) : store64 (htonll x) = (leBytes 8 (x % 2 ^ 64).toNat).reverse := by
  rw [store64, toNat_htonll]
  exact leBytes_swap_halves 4 _

theorem decodeTime_store64 {x : ℤ} (h : InTime x) : decodeTime (store64 (htonll x)) = x := by
  obtain ⟨hlo, hhi⟩ := h
  have hlt : (x % 2 ^ 64).toNat < 256 ^ 8 := by omega
  rw [decodeTime, store64_htonll, beNat_reverse_leBytes hlt]
  split_ifs <;> omega

/-- The tags of an entry are written one behind the other, and nothing else is. -/
theorem nfoTags_writes {tags : List CacheTag} (ht : ∀ tag ∈ tags, IsName tag) (base : ByteMemory)
    (p : ℕ) {cap : ℕ} (h : p + wireLength tags ≤ cap) :
    ∃ base', nfoTags tags base p p cap = (base', p + wireLength tags, true) ∧
      base'.read p (wireLength tags) = tags.flatMap wireName ∧
      ∀ a, a < p ∨ p + wireLength tags ≤ a → base' a = base a := by
  induction tags generalizing base p with
  | nil => exact ⟨base, rfl, rfl, fun _ _ => rfl⟩
  | cons tag tags ih =>
    have htag := ht tag List.mem_cons_self
    have hw : wireLength (tag :: tags) = (wireName tag).length + wireLength tags := by
      rw [wireLength, List.map_cons, List.sum_cons, ← wireLength, length_wireName]
    have hlen : p + (wireName tag).length = p + 1 + tag.length := by
      rw [length_wireName]
      omega
    rw [hw] at h ⊢
    obtain ⟨base', he, hread, hrest⟩ :=
      ih (fun tag h => ht tag (List.mem_cons_of_mem _ h)) (writeName base p tag)
      (p + (wireName tag).length) (by omega)
    have hstep : nfoTags (tag :: tags) base p p cap =
        nfoTags tags (writeName base p tag) (p + 1 + tag.length) (p + 1 + tag.length) cap := by
      rw [nfoTags, if_neg (by omega)]
      rfl
    refine ⟨base', ?_, ?_, fun a ha => ?_⟩
    · rw [hstep, ← hlen, he, Nat.add_assoc]
    · have hfirst :
          base'.read p (wireName tag).length = (writeName base p tag).read p
          (wireName tag).length :=
        ByteMemory.read_congr fun i hi => hrest _ (Or.inl (by omega))
      rw [ByteMemory.read_add, hfirst, read_writeName _ _ htag, hread, List.flatMap_cons]
    · rw [hrest a (by omega), writeName_of_not_mem _ htag (by omega)]

theorem wireLength_eq (tags : List CacheTag) :
    wireLength tags = (tags.map List.length).sum + tags.length := by
  induction tags with
  | nil => rfl
  | cons tag tags ih =>
    rw [wireLength, List.map_cons, List.sum_cons, ← wireLength, ih, List.map_cons, List.sum_cons,
      List.length_cons]
    omega

/-- The tags of any entry fit the buffer. -/
theorem nfoLength_le {tags : List CacheTag} (ht : AreTags tags) :
    sizeofNFOResponsePayload + wireLength tags ≤ MAX_BUCKET_SIZE := by
  have hsum := sum_length_le ht
  have hcount := ht.1
  have h16 : sizeofNFOResponsePayload = 16 := rfl
  have hmax : MAX_BUCKET_SIZE = 0x800000 := rfl
  rw [wireLength_eq]
  omega

/-- The bytes that the two times take. -/
theorem read_times (base : ByteMemory) (expires mtime : ℤ) :
    ((base.write 0 (store64 (htonll expires))).write 8 (store64 (htonll mtime))).read 0 16 =
      store64 (htonll expires) ++ store64 (htonll mtime) := by
  have hlen (x : ℤ) : (store64 (htonll x)).length = 8 := length_leBytes 8 _
  have h₁ := ByteMemory.read_write_self base 0 (store64 (htonll expires))
  have h₂ :=
    ByteMemory.read_write_self (base.write 0 (store64 (htonll expires))) 8 (store64 (htonll mtime))
  have h₃ : ((base.write 0 (store64 (htonll expires))).write 8 (store64 (htonll mtime))).read 0 8 =
      (base.write 0 (store64 (htonll expires))).read 0 8 :=
    ByteMemory.read_write_of_disjoint _ (Or.inl (by omega))
  rw [hlen] at h₁ h₂
  rw [ByteMemory.read_add _ 0 8 8, h₃, h₁, Nat.zero_add, h₂]

/-- What a client makes of the payload. -/
theorem decodeEntryInfo_eq {expires mtime : ℤ} {tags : List CacheTag} (he : InTime expires)
    (hm : InTime mtime) (ht : AreTags tags) :
    decodeEntryInfo (store64 (htonll expires) ++ store64 (htonll mtime) ++ tags.flatMap wireName) =
      some (expires, mtime, tags.map List.reverse) := by
  have hlen (x : ℤ) : (store64 (htonll x)).length = 8 := length_leBytes 8 _
  have hboth : (store64 (htonll expires) ++ store64 (htonll mtime)).length = 16 := by
    rw [List.length_append, hlen, hlen]
  rw [decodeEntryInfo, if_neg (by rw [List.length_append, hboth]; omega), List.drop_left' hboth,
    decodeNames_flatMap fun tag h => (ht.2 tag h).2, List.append_assoc, List.take_left' (hlen _),
    List.drop_left' (hlen _), List.take_left' (hlen _), decodeTime_store64 he,
    decodeTime_store64 hm]
  rfl

/-- An NFO about a key tells all there is to tell about its entry. -/
theorem nfo_reply {env : Env} {ctx : Ctx} {r : Request} {key : CacheKey} {rest : List UInt8}
    {entry : CacheEntry} (hk : IsName key) (hl : r.nKlen.toNat = key.length)
    (hin : ctx.client.input = key.reverse ++ rest) (hcap : ctx.payload_buffer.cap = MAX_BUCKET_SIZE)
    (hentry : ctx.store.current key = some entry) (ht : AreTags entry.tags)
    (hexpires : InTime entry.expires) (hmtime : InTime entry.mtime) :
    (handleNfoRequest env ctx r).status = .ok ∧
    (handleNfoRequest env ctx r).response_payload = .payloadBuffer ∧
      (handleNfoRequest env ctx r).ctx.store = ctx.store ∧
      (handleNfoRequest env ctx r).ctx.payload_buffer.nmemb = 16 +
      (entry.tags.map fun tag => 1 + tag.length).sum ∧
      decodeEntryInfo ((handleNfoRequest env ctx r).ctx.payload_buffer.base.read 0
        (handleNfoRequest env ctx r).ctx.payload_buffer.nmemb) =
          some (entry.expires, entry.mtime, entry.tags.map List.reverse) ∧
      ∀ a, ctx.payload_buffer.cap ≤ a →
        (handleNfoRequest env ctx r).ctx.payload_buffer.base a = ctx.payload_buffer.base a := by
  obtain ⟨reads, hread⟩ := readRequestKey_spec hk hin hl
  obtain ⟨⟨pos, found⟩, hget, hfound⟩ := Option.map_eq_some_iff.mp hentry
  obtain rfl : found = entry := hfound
  have hpos : r.nKlen > 0 := by
    rw [gt_iff_lt, UInt8.lt_iff_toNat_lt, hl]
    exact List.length_pos_iff.mpr hk.1
  have hfit := nfoLength_le ht
  rw [← hcap] at hfit
  obtain ⟨base', hwrite, htags, hrest⟩ := nfoTags_writes ht.2
    ((ctx.payload_buffer.base.write 0 (store64 (htonll found.expires))).write 8
      (store64 (htonll found.mtime)))
    sizeofNFOResponsePayload hfit
  have hanswer :
    handleNfoRequest env ctx r =
    ⟨.ok, .payloadBuffer, ⟨ctx.store, ctx.client.advance key.length reads,
      ⟨base', sizeofNFOResponsePayload + wireLength found.tags, ctx.payload_buffer.cap⟩⟩⟩ := by
    unfold handleNfoRequest
    simp only [if_pos hpos, hread, hget, hwrite, if_true]
  have h16 : sizeofNFOResponsePayload = 16 := rfl
  have hlen (x : ℤ) : (store64 (htonll x)).length = 8 := length_leBytes 8 _
  rw [hanswer]
  refine ⟨rfl, rfl, rfl, ?_, ?_, fun a ha => ?_⟩
  · exact congrArg (16 + ·) (congrArg List.sum (List.map_congr_left fun tag _ => Nat.add_comm ..))
  · have hfirst :
        base'.read 0 16 = store64 (htonll found.expires) ++ store64 (htonll found.mtime) := by
      rw [← read_times ctx.payload_buffer.base]
      exact ByteMemory.read_congr fun i hi => hrest _ (Or.inl (by omega))
    show decodeEntryInfo (base'.read 0 (16 + wireLength found.tags)) = _
    rw [ByteMemory.read_add, hfirst, Nat.zero_add, ← h16, htags]
    exact decodeEntryInfo_eq hexpires hmtime ht
  · show base' a = ctx.payload_buffer.base a
    rw [hrest a (Or.inr (by omega)), ByteMemory.write, hlen, if_neg (by omega),
      ByteMemory.write, hlen, if_neg (by omega)]

/-- An NFO about an entry with the tag `1` that does not expire. -/
theorem nfo_reply_set : ∃ s : Store,
    Served.Step Store.init (.alone (setOf entryOld) ⟨by decide, by decide, by decide⟩ startEnv) s ∧
      decodeEntryInfo
        ((handleNfoRequest startEnv
            ⟨s, openFile keyK.reverse, reserveBiggestPossiblePayload fun _ => 0⟩
            (Cmd.nfo keyK).request).ctx.payload_buffer.base.read 0
          (handleNfoRequest startEnv
            ⟨s, openFile keyK.reverse, reserveBiggestPossiblePayload fun _ => 0⟩
            (Cmd.nfo keyK).request).ctx.payload_buffer.nmemb) = some (-1, 0, [[0x31]]) := by
  have hok : (setEntry Store.init entryOld).1 = .ok :=
    setEntry_ok_iff.mpr ⟨homeSlot keyK, openAt_init keyK _⟩
  have hstep :=
    Served.step_exec (.alone (setOf entryOld) ⟨by decide, by decide, by decide⟩ startEnv) Store.init
  have hcur : ((setOf entryOld).exec startEnv Store.init).2.current keyK = some entryOld := by
    rw [exec_setOf rfl (by decide) (by decide), current_setEntry hok]
    rfl
  exact ⟨_, hstep,
    (@nfo_reply startEnv ⟨_, openFile keyK.reverse, reserveBiggestPossiblePayload fun _ => 0⟩
    (Cmd.nfo keyK).request keyK [] entryOld (by decide) (by decide) rfl rfl hcur
    (by decide) (by decide) (by decide)).2.2.2.2.1⟩

end Cik

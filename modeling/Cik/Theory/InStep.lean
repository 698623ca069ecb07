import Cik.Theory.Independence
import Cik.Theory.Replies

/-!
# Replies, one after the other

A client finds the end of a reply by its header: a success has as many bytes behind the
header as the header says, a failure has none (`parseReply`). So the client and the
worker stay in step when the worker sends one reply of this form for each request, or
closes the connection (`OneReply`).

Whether it does is decided when the handler returns (`Handled.Consistent`): the header
is made from the status, the payload is sent whenever there is one. A handler that
fails once it has pointed at a payload breaks the rule. There are three: an NFO about
a key that is not there, a LST of the keys without some tags, whose payload is read
through a pointer to a variable that is gone, and any other LST that is cut short
(`Request.Misframes`). `oneReply_iff` says that there are no more.
-/

namespace Cik

open ByteOrder

/-! ### How a client reads replies -/

/-- What a reply says. -/
inductive Reply where
  /-- The request failed. -/
  | failure (error_code : ℕ)
  /-- The request succeeded, with this payload. -/
  | success (payload : List UInt8)
  deriving DecidableEq

/-- The reply that a stream begins with, and what is behind it. -/
def parseReply : List UInt8 → Option (Reply × List UInt8)
  | c₁ :: c₂ :: c₃ :: status :: b₁ :: b₂ :: b₃ :: b₄ :: rest =>
    let word := beNat [b₁, b₂, b₃, b₄]
    if c₁ ≠ CONTROL_BYTE_1 ∨ c₂ ≠ CONTROL_BYTE_2 ∨ c₃ ≠ CONTROL_BYTE_3 then none
    else if status = FAILURE_BYTE then some (.failure word, rest)
    else if status = SUCCESS_BYTE ∧
      word ≤ rest.length then some (.success (rest.take word), rest.drop word)
    else none
  | _ => none

/-- The next `n` replies, and what is behind them. -/
def parseReplies : ℕ → List UInt8 → Option (List Reply × List UInt8)
  | 0, bs => some ([], bs)
  | n + 1, bs =>
    match parseReply bs with
    | none => none
    | some (reply, bs) => (parseReplies n bs).map fun r => (reply :: r.1, r.2)

/-- The bytes are one reply. -/
def IsReply (bs : List UInt8) : Prop := ∃ reply, parseReply bs = some (reply, [])

/-- What follows a reply has no part in it. -/
theorem parseReply_append {bs tail : List UInt8} {reply : Reply}
    (h : parseReply bs = some (reply, tail)) (rest : List UInt8) :
    parseReply (bs ++ rest) = some (reply, tail ++ rest) := by
  revert h
  unfold parseReply
  split
  · rename_i c₁ c₂ c₃ status b₁ b₂ b₃ b₄ bs
    simp only [List.cons_append]
    split_ifs with hctl hfail hsize hsize'
    · nofun
    · intro h
      cases h
      rfl
    · intro h
      cases h
      rw [List.take_append_of_le_length hsize.2, List.drop_append_of_le_length hsize.2]
    · rw [List.length_append] at hsize'
      exact absurd ⟨hsize.1, Nat.le_trans hsize.2 (Nat.le_add_right _ _)⟩ hsize'
    · nofun
    · nofun
  · nofun

/-- One reply after the other. -/
theorem parseReplies_append {n : ℕ} {bs bs' : List UInt8} {replies : List Reply} {reply : Reply}
    (h : parseReplies n bs = some (replies, [])) (h' : parseReply bs' = some (reply, [])) :
    parseReplies (n + 1) (bs ++ bs') = some (replies ++ [reply], []) := by
  induction n generalizing bs replies with
  | zero =>
    cases h
    rw [parseReplies, List.nil_append, h']
    rfl
  | succ n ih =>
    rw [parseReplies] at h
    cases hp : parseReply bs with
    | none =>
      rw [hp] at h
      nomatch h
    | some x =>
      obtain ⟨first, rest⟩ := x
      rw [hp] at h
      obtain ⟨⟨others, rest'⟩, hq, heq⟩ := Option.map_eq_some_iff.mp h
      cases heq
      rw [parseReplies, parseReply_append hp]
      dsimp only
      rw [ih hq]
      rfl

/-- A number in a header. -/
theorem store32_htonl (x : UInt32) : ∃ b₁ b₂ b₃ b₄, store32 (htonl x) = [b₁, b₂, b₃, b₄] ∧
    beNat [b₁, b₂, b₃, b₄] = x.toNat := by
  have hword : store32 (htonl x) = (leBytes 4 x.toNat).reverse := by
    rw [store32, toNat_htonl, leBytes_swapBytes]
  have hnat : beNat (store32 (htonl x)) = x.toNat := by
    rw [hword, beNat_reverse_leBytes x.toNat_lt]
  have hlen := length_store32 (htonl x)
  revert hnat hlen
  generalize store32 (htonl x) = bs
  intro hnat hlen
  obtain ⟨b₁, b₂, b₃, b₄, rfl⟩ := List.length_eq_four.mp hlen
  exact ⟨b₁, b₂, b₃, b₄, rfl, hnat⟩

theorem parseReply_failure (error : UInt32) (rest : List UInt8) :
    parseReply (makeFailureResponse error ++ rest) = some (.failure error.toNat, rest) := by
  obtain ⟨b₁, b₂, b₃, b₄, hstore, hword⟩ := store32_htonl error
  rw [makeFailureResponse, hstore]
  simp only [List.cons_append, List.nil_append, parseReply, hword, ne_eq, not_true_eq_false,
    or_self, if_false, if_true]

theorem parseReply_success (size : UInt32) (rest : List UInt8) :
    parseReply (makeSuccessResponse size ++ rest) = if size.toNat ≤ rest.length
      then some (.success (rest.take size.toNat), rest.drop size.toNat) else none := by
  obtain ⟨b₁, b₂, b₃, b₄, hstore, hword⟩ := store32_htonl size
  have hne : SUCCESS_BYTE ≠ FAILURE_BYTE := by decide
  rw [makeSuccessResponse, hstore]
  simp only [List.cons_append, List.nil_append, parseReply, hword, ne_eq, not_true_eq_false,
    or_self, if_false, hne, true_and]

/-! ### One reply for a request -/

/-- The connection is closed, or one reply was sent. -/
def OneReply (client client' : Client) : Prop :=
  client'.isOpen = false ∨ ∃ reply, IsReply reply ∧ client'.sent = client.sent ++ reply

namespace Handled

/-- The payload is as long as the header says, and not there when the request failed. -/
def Consistent (h : Handled) (stale : StaleReads) : Prop :=
  if h.status.has (MASK_CLIENT_ERROR ||| MASK_CLIENT_MESSAGE) then h.payloadBytes stale = []
  else (h.payloadBytes stale).length = (h.payloadSize stale).toNat

theorem isReply_iff (h : Handled) (stale : StaleReads) :
    IsReply (h.response stale ++ h.payloadBytes stale) ↔ h.Consistent stale := by
  unfold IsReply Consistent response
  split_ifs with hfail
  · rw [parseReply_failure]
    simp
  · rw [parseReply_success]
    split_ifs with hle
    · constructor
      · rintro ⟨reply, heq⟩
        simp only [Option.some.injEq, Prod.mk.injEq, List.drop_eq_nil_iff] at heq
        exact Nat.le_antisymm heq.2 hle
      · intro heq
        exact ⟨_, by rw [← heq, List.drop_length]⟩
    · refine iff_of_false (by simp) fun heq => hle heq.ge

/-- The worker closes the connection, or what it sends is one reply, whatever is read through a
pointer to a variable that is gone. -/
def OneReply (h : Handled) : Prop :=
  h.status.has MASK_INTERNAL_ERROR = true ∨ ∀ stale, h.Consistent stale

theorem oneReply_of_null {h : Handled} (hp : h.response_payload = .null) : h.OneReply := by
  refine Or.inr fun stale => ?_
  unfold Consistent payloadBytes payloadSize
  rw [hp]
  split_ifs <;> rfl

/-- The buffer is sent, and it is not said that the request failed. -/
theorem oneReply_of_ok {h : Handled} (hp : h.response_payload = .payloadBuffer)
    (hok : h.status = .ok) (hn : h.ctx.payload_buffer.nmemb ≤ MAX_BUCKET_SIZE) : h.OneReply := by
  refine Or.inr fun stale => ?_
  unfold Consistent payloadBytes payloadSize
  rw [hp, hok, if_neg (by decide)]
  dsimp only
  rw [ByteMemory.length_read, UInt32.toNat_ofNat_of_lt']
  exact Nat.lt_of_le_of_lt hn (by decide)

/-- A request that failed is answered with a header when nothing is in the buffer, and only then. -/
theorem oneReply_iff_of_failed {h : Handled} (hp : h.response_payload = .payloadBuffer)
    (hfail : h.status = .notFound ∨ h.status = .outOfMemory) : h.OneReply ↔
    h.ctx.payload_buffer.nmemb = 0 := by
  have hint : ¬ h.status.has MASK_INTERNAL_ERROR = true := by
    rcases hfail with h | h <;> rw [h] <;> decide
  have hfail : h.status.has (MASK_CLIENT_ERROR ||| MASK_CLIENT_MESSAGE) = true := by
    rcases hfail with h | h <;> rw [h] <;> decide
  have hcons (stale : StaleReads) : h.Consistent stale ↔ h.ctx.payload_buffer.nmemb = 0 := by
    unfold Consistent payloadBytes
    rw [if_pos hfail, hp]
    dsimp only
    rw [← List.length_eq_zero_iff, ByteMemory.length_read]
  constructor
  · rintro (h | h)
    · exact absurd h hint
    · exact (hcons ⟨0, []⟩).mp (h _)
  · intro h
    exact Or.inr fun stale => (hcons stale).mpr h

/-- What is read through the pointer may be anything. -/
theorem not_oneReply_of_alt {h : Handled} (hp : h.response_payload = .altPayload)
    (hint : h.status.has MASK_INTERNAL_ERROR = false) : ¬ h.OneReply := by
  rintro (h | h)
  · exact Bool.false_ne_true (hint.symm.trans h)
  · have hone := h ⟨0, [0]⟩
    unfold Consistent payloadBytes payloadSize at hone
    rw [hp] at hone
    split_ifs at hone
    nomatch hone

end Handled

/-- A write fails, or all is sent. -/
theorem writeResponsePayload_cases (c : Client) (bs : List UInt8) :
    (writeResponsePayload c bs).1.has MASK_INTERNAL_ERROR = true ∨
      ∃ sends,
      writeResponsePayload c bs = (.ok, { c with sent := c.sent ++ bs, sends := sends }) := by
  obtain ⟨n, sends, hc, ⟨hok, hall⟩ | hint⟩ := writeResponsePayload_spec c bs
  · rw [hall] at hc
    exact Or.inr ⟨sends, Prod.ext hok hc⟩
  · exact Or.inl hint

/-- Either the connection is closed, or the response and the payload are sent. -/
theorem writeReply_cases (h : Handled) (stale : StaleReads) :
    (writeReply stale h).client.isOpen = false ∨
    (writeReply stale h).client.sent = h.ctx.client.sent ++
    (h.response stale ++ h.payloadBytes stale) := by
  unfold writeReply
  rcases writeResponsePayload_cases h.ctx.client (h.response stale) with hint | ⟨sends, heq⟩
  · dsimp only
    rw [if_pos hint]
    exact Or.inl rfl
  rw [heq]
  dsimp only
  rw [if_neg (by decide)]
  by_cases hpay : (h.payloadBytes stale).length > 0
  · rw [if_pos hpay]
    rcases writeResponsePayload_cases
      { h.ctx.client with sent := h.ctx.client.sent ++ h.response stale, sends := sends }
      (h.payloadBytes stale) with hint | ⟨sends', heq'⟩
    · rw [if_pos hint]
      exact Or.inl rfl
    · rw [heq']
      dsimp only
      rw [if_neg (by decide)]
      exact Or.inr (List.append_assoc ..)
  · rw [if_neg hpay, List.eq_nil_of_length_eq_zero (Nat.eq_zero_of_not_pos hpay), List.append_nil]
    exact Or.inr rfl

/-! ### What the handlers return -/

section Handlers

variable {env : Env} {ctx : Ctx} {r : Request}

theorem handleGetRequest_oneReply (hcap : ctx.payload_buffer.cap = MAX_BUCKET_SIZE) :
    (handleGetRequest env ctx r).OneReply := by
  unfold handleGetRequest
  dsimp only
  obtain ⟨status, key, client⟩ := readRequestKey ctx.client r.gKlen
  cases status with
  | ok =>
    dsimp only
    cases lockAndGetCacheEntry (ctx.store.mapOf key) key with
    | none => exact Handled.oneReply_of_null rfl
    | some found =>
      obtain ⟨pos, entry⟩ := found
      dsimp only
      split_ifs with hexp hbig hpos
      · exact Handled.oneReply_of_null rfl
      · exact Handled.oneReply_of_null rfl
      · exact Handled.oneReply_of_ok rfl rfl (hcap ▸ Nat.le_of_not_gt hbig)
      · exact Handled.oneReply_of_null rfl
  | _ => exact Handled.oneReply_of_null rfl

/-- An NFO is answered with one reply unless it is about a key that is not there. -/
theorem handleNfoRequest_oneReply_iff (hcap : ctx.payload_buffer.cap = MAX_BUCKET_SIZE) :
    (handleNfoRequest env ctx r).OneReply ↔
    ¬ (0 < r.nKlen ∧ r.nKlen.toNat ≤ ctx.client.input.length ∧
      ctx.store.current (ctx.client.input.take r.nKlen.toNat).reverse = none) := by
  have hsize : sizeofNFOResponsePayload ≤ MAX_BUCKET_SIZE := by decide
  by_cases hpos : 0 < r.nKlen
  · rcases hread : readRequestKey ctx.client r.nKlen with ⟨status, key, client⟩
    by_cases hok : status = .ok
    · subst hok
      obtain ⟨hle, hkey⟩ := (readRequestKey_ok_iff hpos).mp ⟨client, hread⟩
      cases hnone : ctx.store.current key with
      | none =>
        -- the buffer was pointed at before the key was looked up
        rw [handleNfoRequest_missing hpos hread hnone,
          Handled.oneReply_iff_of_failed rfl (Or.inl rfl)]
        refine iff_of_false ?_ (not_not.mpr ⟨hpos, hle, hkey ▸ hnone⟩)
        exact Nat.succ_ne_zero 15
      | some entry =>
        refine iff_of_true ?_ fun h => ?_
        · obtain ⟨found, hget, -⟩ := Option.map_eq_some_iff.mp hnone
          rw [handleNfoRequest, if_pos hpos, hread]
          dsimp only
          rw [hget]
          obtain ⟨hfits, hn⟩ := @nfoTags_spec found.2.tags ((ctx.payload_buffer.base.write 0
            (store64 (htonll found.2.expires))).write 8 (store64 (htonll found.2.mtime)))
            sizeofNFOResponsePayload sizeofNFOResponsePayload ctx.payload_buffer.cap
              (by rw [hcap]; exact hsize)
          dsimp only
          rw [hfits]
          by_cases hroom :
            sizeofNFOResponsePayload + wireLength found.2.tags ≤ ctx.payload_buffer.cap
          · refine Handled.oneReply_of_ok rfl ?_ ?_
            · exact if_pos (decide_eq_true hroom)
            · dsimp only
              rw [hn hroom, ← hcap]
              exact hroom
          · refine Or.inl ?_
            dsimp only
            rw [decide_eq_false hroom]
            rfl
        · rw [← hkey, hnone] at h
          exact absurd h.2.2 (Option.some_ne_none _)
    · refine iff_of_true (Or.inl ?_) fun h => hok ?_
      · have hst := status_readRequestKey ctx.client r.nKlen
        have hint := (status_readRequestPayload ctx.client r.nKlen.toNat).resolve_left
        rw [← hst, hread] at hint
        rw [handleNfoRequest, if_pos hpos, hread]
        cases status <;> first | exact hint hok | exact absurd rfl hok
      · obtain ⟨client', hread'⟩ := (readRequestKey_ok_iff hpos).mpr ⟨h.2.1, rfl⟩
        rw [hread] at hread'
        exact congrArg Prod.fst hread'
  · refine iff_of_true ?_ fun h => hpos h.1
    rw [handleNfoRequest, if_neg hpos]
    exact Handled.oneReply_of_ok rfl rfl hsize

/-- The tags are read just when they are there, if it comes to no empty one. -/
theorem Request.tagsAre_iff {ctx : Ctx} {r : Request} {status : StatusCode}
    {slices : List Slice} {c : Ctx}
    (hread : readTagsUsingPayloadBuffer ctx r.cNtags = (status, slices, c))
    (hne :
      (readTagsLoop r.cNtags.toNat ctx.client ctx.payload_buffer.base 0 ctx.payload_buffer.cap
        []).hasEmpty = false) :
    status = .ok ↔ ∃ tags, r.TagsAre ctx.payload_buffer.cap ctx.client.input tags := by
  have h := @Request.exists_tagsAre_iff ctx r
  rw [hread, and_iff_left hne] at h
  exact h.symm

/-- A LST whose tags are not read has no payload. -/
theorem handleLstRequest_unread {ctx : Ctx} {r : Request} {status : StatusCode}
    {slices : List Slice} {c : Ctx}
    (hread : readTagsUsingPayloadBuffer ctx r.cNtags = (status, slices, c)) (hok : status ≠ .ok) :
    (handleLstRequest ctx r).response_payload = .null := by
  rw [handleLstRequest, hread]
  cases status <;> first | rfl | exact absurd rfl hok

/-- There are more names than fit the buffer, but some do. -/
def Store.CutShort (s : Store) (mode : UInt8) (tags : List CacheTag) : Prop :=
  MAX_BUCKET_SIZE < wireLength (s.listNames mode tags) ∧
    ∀ name ∈ (s.listNames mode tags).head?, name.length < MAX_BUCKET_SIZE

/-- A listing that fails has nothing in it unless it is cut short. -/
theorem Store.listing_eq_nil_iff {s : Store} {mode : UInt8} {tags : List CacheTag}
    (h : (listing MAX_BUCKET_SIZE (s.listNames mode tags)).1 = .outOfMemory) :
    (listing MAX_BUCKET_SIZE (s.listNames mode tags)).2 = [] ↔ ¬ s.CutShort mode tags := by
  have hlt : MAX_BUCKET_SIZE < wireLength (s.listNames mode tags) := by
    by_contra hle
    rw [listing_ok_iff.mpr (Nat.le_of_not_lt hle)] at h
    cases h
  rw [Cik.listing_eq_nil_iff hlt, CutShort, not_and]
  cases hnames : s.listNames mode tags with
  | nil =>
    rw [hnames] at hlt
    exact absurd hlt (Nat.not_lt_zero _)
  | cons name names =>
    simp only [List.head?_cons, Option.mem_def, Option.some.injEq, forall_eq']
    rw [hnames] at hlt
    constructor
    · intro h _
      omega
    · intro h
      have := h hlt
      omega

theorem handleLstRequest_oneReply_iff_of_tags {tags : List CacheTag}
    (hcap : ctx.payload_buffer.cap = MAX_BUCKET_SIZE)
    (ht : r.TagsAre MAX_BUCKET_SIZE ctx.client.input tags) (hmode : r.cMode ≤ LIST_MODE_MATCH_ANY) :
    (handleLstRequest ctx r).OneReply ↔
      ¬ (r.cMode = LIST_MODE_MATCH_NONE ∨ ctx.store.CutShort r.cMode tags) := by
  obtain ⟨hn, htags, ⟨rest, hin⟩, hsum⟩ := ht
  obtain ⟨slices, ctx', hread, hstore, hcap', hb, hle⟩ : ∃ slices ctx',
      readTagsUsingPayloadBuffer ctx r.cNtags = (.ok, slices, ctx') ∧ ctx'.store = ctx.store ∧
        ctx'.payload_buffer.cap = MAX_BUCKET_SIZE ∧
        (slices.map fun tag => tag.bytes ctx'.payload_buffer.base) = tags ∧
        ∀ tag ∈ slices, tag.base + tag.nmemb ≤ ctx'.payload_buffer.nmemb := by
    obtain ⟨reads, slices, base, hread, -, hb, hle, -⟩ :=
      readTagsUsingPayloadBuffer_of_le (fun tag htag => (htags tag htag).2) hin.symm
        (by rwa [hcap]) hn.symm
    exact ⟨slices, _, hread, rfl, hcap, hb, hle⟩
  by_cases hm : r.cMode = LIST_MODE_MATCH_NONE
  · obtain ⟨hptr, hint⟩ := handleLstRequest_matchNone hm (by rw [hread])
    exact iff_of_false (Handled.not_oneReply_of_alt hptr hint) (not_not.mpr (Or.inl hm))
  have hl := @lstPayload_lists ctx' False slices r.cMode hmode hle nofun nofun
  rw [lstRoom, if_neg hm, hcap', hb, hstore] at hl
  rw [or_iff_right hm, handleLstRequest_eq hread hmode, if_neg hm, if_neg hm]
  rcases @listing_status MAX_BUCKET_SIZE (ctx.store.listNames r.cMode tags) with hok | hcut
  · refine iff_of_true ?_ fun h => Nat.not_lt.mpr (listing_ok_iff.mp hok) h.1
    refine Handled.oneReply_of_ok rfl (hl.status.trans hok) ?_
    exact hl.nmemb.trans_le length_listing_le
  · rw [Handled.oneReply_iff_of_failed rfl
      (Or.inr (hl.status.trans hcut)), ← Store.listing_eq_nil_iff hcut,
      ← List.length_eq_zero_iff, ← hl.nmemb]
    rfl

/-- A LST is answered with one reply unless it is of the keys without some tags, or cut short. -/
theorem handleLstRequest_oneReply_iff (hcap : ctx.payload_buffer.cap = MAX_BUCKET_SIZE)
    (hne :
      (readTagsLoop r.cNtags.toNat ctx.client ctx.payload_buffer.base 0 ctx.payload_buffer.cap
        []).hasEmpty = false) :
    (handleLstRequest ctx r).OneReply ↔
    ¬ (r.cMode ≤ LIST_MODE_MATCH_ANY ∧ ∃ tags, r.TagsAre MAX_BUCKET_SIZE ctx.client.input tags ∧
      (r.cMode = LIST_MODE_MATCH_NONE ∨ ctx.store.CutShort r.cMode tags)) := by
  rcases hread : readTagsUsingPayloadBuffer ctx r.cNtags with ⟨status, slices, c⟩
  have hiff := Request.tagsAre_iff hread hne
  rw [hcap] at hiff
  by_cases hok : status = .ok
  · subst hok
    by_cases hmode : r.cMode ≤ LIST_MODE_MATCH_ANY
    · constructor
      · rintro h ⟨-, tags, ht, hbad⟩
        exact (handleLstRequest_oneReply_iff_of_tags hcap ht hmode).mp h hbad
      · intro h
        obtain ⟨tags, ht⟩ := hiff.mp rfl
        exact (handleLstRequest_oneReply_iff_of_tags hcap ht hmode).mpr fun hbad =>
          h ⟨hmode, tags, ht, hbad⟩
    · refine iff_of_true ?_ fun h => hmode h.1
      rw [handleLstRequest_unknown hread hmode]
      exact Handled.oneReply_of_null rfl
  · exact iff_of_true (Handled.oneReply_of_null (handleLstRequest_unread hread hok))
      fun h => hok (hiff.mpr (h.2.imp fun tags ht => ht.1))

/-- A request that is not answered as it should be: an NFO about a key that is not there, a LST of
the keys without some tags, or another LST that is cut short. -/
def Request.Misframes (r : Request) (s : Store) (input : List UInt8) : Prop :=
  r.HasControl ∧
    ((r.op = CMD_BYTE_LST ∧ r.cMode ≤ LIST_MODE_MATCH_ANY ∧
      ∃ tags, r.TagsAre MAX_BUCKET_SIZE input tags ∧
        (r.cMode = LIST_MODE_MATCH_NONE ∨ s.CutShort r.cMode tags)) ∨
      (r.op = CMD_BYTE_NFO ∧ 0 < r.nKlen ∧ r.nKlen.toNat ≤ input.length ∧
        s.current (input.take r.nKlen.toNat).reverse = none))

/-- No name in such a request is empty. -/
theorem Request.Misframes.names {s : Store} {client : Client} {buffer : Payload}
    (h : r.Misframes s client.input) (hcap : buffer.cap = MAX_BUCKET_SIZE) :
    readsEmptyName client buffer r = false := by
  obtain ⟨hctl, ⟨hop, -, tags, htags, -⟩ | ⟨hop, -⟩⟩ := h
  · rw [readsEmptyName_lst hctl hop]
    rw [← hcap] at htags
    exact (@Request.exists_tagsAre_iff ⟨s, client, buffer⟩ r).mp ⟨tags, htags⟩ |>.2
  · exact readsEmptyName_nfo hctl hop

theorem handleRequest_oneReply_iff (hcap : ctx.payload_buffer.cap = MAX_BUCKET_SIZE)
    (hne : readsEmptyName ctx.client ctx.payload_buffer r = false) :
    (handleRequest env ctx r).OneReply ↔ ¬ r.Misframes ctx.store ctx.client.input := by
  have hother (hlst : r.op ≠ CMD_BYTE_LST) (hnfo : r.op ≠ CMD_BYTE_NFO) :
      ¬ r.Misframes ctx.store ctx.client.input := by
    rintro ⟨-, ⟨hop, -⟩ | ⟨hop, -⟩⟩
    · exact hlst hop
    · exact hnfo hop
  unfold handleRequest
  split_ifs with hctl hget hset hdel hclr hlst hnfo
  · exact iff_of_true (Handled.oneReply_of_null rfl) fun h => Request.not_hasControl hctl h.1
  · exact iff_of_true (handleGetRequest_oneReply hcap)
      (hother (by rw [hget]; decide) (by rw [hget]; decide))
  · exact iff_of_true (Handled.oneReply_of_null handleSetRequest_response_payload)
      (hother (by rw [hset]; decide) (by rw [hset]; decide))
  · exact iff_of_true (Handled.oneReply_of_null handleDelRequest_response_payload)
      (hother (by rw [hdel]; decide) (by rw [hdel]; decide))
  · exact iff_of_true (Handled.oneReply_of_null handleClrRequest_response_payload)
      (hother (by rw [hclr]; decide) (by rw [hclr]; decide))
  · push Not at hctl
    have hnfo : r.op ≠ CMD_BYTE_NFO := by
      rw [hlst]
      decide
    rw [readsEmptyName_lst hctl hlst] at hne
    rw [handleLstRequest_oneReply_iff hcap hne, Request.Misframes,
      and_iff_right (show r.HasControl from hctl), and_iff_right hlst,
      or_iff_left fun h => hnfo h.1]
  · push Not at hctl
    rw [handleNfoRequest_oneReply_iff hcap, Request.Misframes,
      and_iff_right (show r.HasControl from hctl), and_iff_right hnfo,
      or_iff_right fun h => hlst h.1]
  · exact iff_of_true (Handled.oneReply_of_null rfl) (hother hlst hnfo)

end Handlers

/-! ### What a worker sends -/

section Sent

variable {h : Handled} {client : Client}

/-- What the worker does once the handler has returned. -/
theorem oneReply_of_handled (ha : h.OneReply) (hsent : h.ctx.client.sent = client.sent)
    (stale : StaleReads) :
    OneReply client (if h.status.has MASK_INTERNAL_ERROR then h.ctx.withClient h.ctx.client.close
      else writeReply stale h).client := by
  split_ifs with hint
  · exact Or.inl rfl
  · rcases writeReply_cases h stale with hclosed | hall
    · exact Or.inl hclosed
    · exact Or.inr ⟨_, (h.isReply_iff stale).mpr (ha.resolve_left hint stale), hsent ▸ hall⟩

/-- When all is sent, it shows whether it is one reply. -/
theorem exists_not_oneReply (ha : ¬ h.OneReply) (hsent : h.ctx.client.sent = client.sent)
    (hopen : h.ctx.client.isOpen = true) (hs : h.ctx.client.Flows) :
    ∃ stale,
    ¬ OneReply client (if h.status.has MASK_INTERNAL_ERROR then h.ctx.withClient h.ctx.client.close
      else writeReply stale h).client := by
  obtain ⟨hint, hcons⟩ := not_or.mp ha
  obtain ⟨stale, hcons⟩ := not_forall.mp hcons
  refine ⟨stale, ?_⟩
  obtain ⟨sends, hclient⟩ := writeReply_of_flows stale hs
  rw [if_neg hint, hclient]
  rintro (hclosed | ⟨reply, hreply, heq⟩)
  · exact Bool.false_ne_true (hclosed.symm.trans hopen)
  · have heq :
      h.ctx.client.sent ++ (h.response stale ++ h.payloadBytes stale) = client.sent ++ reply := heq
    rw [hsent] at heq
    rw [← List.append_cancel_left heq] at hreply
    exact hcons ((h.isReply_iff stale).mp hreply)

end Sent

/-- What is read from the client is a request that is not answered as it should be. -/
def Misframed (s : Store) (input : List UInt8) : Prop :=
  16 ≤ input.length ∧ (Request.ofBytes (input.take 16)).Misframes s (input.drop 16)

/-- A client that is told of the end of the stream within a header is closed. -/
theorem processRequest_closed {client : Client} (h : client.input.length < 16) (env : Env)
    (stale : StaleReads) (s : Store) (buffer : Payload) :
    (processRequest env stale ⟨s, client, buffer⟩).client.isOpen = false := by
  obtain ⟨reads, hr⟩ := readRequestPayload_of_lt h
  have hint : client.endStatus.has MASK_INTERNAL_ERROR = true := client.endStatus_has_internal
  rw [processRequest, hr]
  dsimp only
  rw [if_pos hint]
  rfl

/-- A request that is answered as it should be gets one reply. -/
theorem oneReply_of_not_misframed {env : Env} {stale : StaleReads} {s : Store} {client : Client}
    {base : ByteMemory} {nmemb : ℕ} (h : ¬ Misframed s client.input) :
    OneReply client
      (processRequest env stale ⟨s, client, ⟨base, nmemb, MAX_BUCKET_SIZE⟩⟩).client := by
  rcases Nat.lt_or_ge client.input.length 16 with hlt | hle
  · exact Or.inl (processRequest_closed hlt env stale s _)
  · obtain ⟨reads, hproc⟩ := processRequest_eq hle
    rw [hproc]
    by_cases hne : readsEmptyName (client.advance 16 reads) ⟨base, nmemb, MAX_BUCKET_SIZE⟩
      (Request.ofBytes (client.input.take 16)) = true
    · rw [if_pos hne]
      exact Or.inl rfl
    rw [if_neg hne]
    generalize hctx : (⟨s, client.advance 16 reads, ⟨base, nmemb, MAX_BUCKET_SIZE⟩⟩ : Ctx) = ctx
    have hcap : ctx.payload_buffer.cap = MAX_BUCKET_SIZE := by rw [← hctx]
    have hmis :
        ¬ (Request.ofBytes (client.input.take 16)).Misframes ctx.store ctx.client.input := by
      rw [← hctx]
      exact fun hmis => h ⟨hle, hmis⟩
    have hsent : ctx.client.sent = client.sent := by
      rw [← hctx]
      rfl
    have hnames :
        readsEmptyName ctx.client ctx.payload_buffer
        (Request.ofBytes (client.input.take 16)) = false := by
      rw [← hctx]
      exact Bool.eq_false_iff.mpr hne
    exact oneReply_of_handled ((handleRequest_oneReply_iff hcap hnames).mpr hmis)
      ((handleRequest_readTo env ctx _).sent_eq.trans hsent) stale

/-- Whatever each send comes to, and whatever is read through a pointer to a variable that is gone,
the worker closes the connection or sends one reply. -/
def AlwaysOneReply (env : Env) (s : Store) (client : Client) : Prop :=
  ∀ (sends : ℕ → Option ℕ) (stale : StaleReads) (base : ByteMemory) (nmemb : ℕ), OneReply client
    (processRequest env stale ⟨s, { client with sends := sends },
      ⟨base, nmemb, MAX_BUCKET_SIZE⟩⟩).client

theorem not_alwaysOneReply {env : Env} {s : Store} {client : Client} (hopen : client.isOpen = true)
    (h : Misframed s client.input) : ¬ AlwaysOneReply env s client := by
  obtain ⟨hle, hmis⟩ := h
  intro halways
  have hle' : 16 ≤ ({ client with sends := fun _ => some 1 } : Client).input.length := hle
  obtain ⟨reads, hproc⟩ := processRequest_eq hle'
  obtain ⟨ctx, hctx⟩ :
    ∃ ctx : Ctx, ctx = ⟨s, ({ client with sends := fun _ => some 1 } : Client).advance 16 reads,
    ⟨fun _ => 0, 0, MAX_BUCKET_SIZE⟩⟩ := ⟨_, rfl⟩
  have hcap : ctx.payload_buffer.cap = MAX_BUCKET_SIZE := by rw [hctx]
  have hmis : (Request.ofBytes (client.input.take 16)).Misframes ctx.store ctx.client.input := by
    rw [hctx]
    exact hmis
  have hread := handleRequest_readTo env ctx (Request.ofBytes (client.input.take 16))
  have hclient : ctx.client.sent = client.sent ∧ ctx.client.isOpen = true ∧
      ctx.client.sends = fun _ => some 1 := by
    rw [hctx]
    exact ⟨rfl, hopen, rfl⟩
  have hflows :
      (handleRequest env ctx (Request.ofBytes (client.input.take 16))).ctx.client.Flows := by
    intro i
    rw [hread.sends_eq, hclient.2.2]
    exact ⟨1, Nat.one_pos, rfl⟩
  have hnames := hmis.names hcap
  obtain ⟨stale, hnot⟩ :=
    @exists_not_oneReply _ client (fun ha => (handleRequest_oneReply_iff hcap hnames).mp ha hmis)
    (hread.sent_eq.trans hclient.1) (hread.isOpen_eq.trans hclient.2.1) hflows
  have hone := halways (fun _ => some 1) stale (fun _ => 0) 0
  rw [hproc, ← hctx, if_neg] at hone
  · exact hnot hone
  · rw [hctx] at hnames
    exact Bool.eq_false_iff.mp hnames

/-! ### One request after the other -/

/-- What happens when a client can be read from: what the process, the maps, the worker's buffer and
the connection come to by then. -/
structure Turn where
  /-- The process. -/
  env : Env
  /-- What is read through pointers to variables that are gone. -/
  stale : StaleReads
  /-- The hash maps and the tag index. -/
  store : Store
  /-- The bytes to be read. -/
  input : List UInt8
  /-- What a read answers once they are used up. -/
  isClosed : Bool
  /-- How much each read transfers. -/
  reads : ℕ → ℕ
  /-- What each send answers. -/
  sends : ℕ → Option ℕ
  /-- The bytes of the buffer. -/
  base : ByteMemory
  /-- How many of them are in use. -/
  nmemb : ℕ

/-- The client when it is its turn. -/
def Turn.client (x : Turn) (client : Client) : Client :=
  ⟨x.input, x.isClosed, x.reads, client.sent, x.sends, client.isOpen⟩

/-- The client after its turn. -/
def Turn.serve (client : Client) (x : Turn) : Client :=
  if client.isOpen then
    (processRequest x.env x.stale
      ⟨x.store, x.client client, ⟨x.base, x.nmemb, MAX_BUCKET_SIZE⟩⟩).client
  else client

/-- The connection is closed, or what was sent to the client reads as `n` replies. -/
def InStep (n : ℕ) (client client' : Client) : Prop :=
  client'.isOpen = false ∨ ∃ bytes replies, client'.sent = client.sent ++ bytes ∧
    parseReplies n bytes = some (replies, [])

theorem InStep.serve {n : ℕ} {client client' : Client} (h : InStep n client client') {x : Turn}
    (hx : ¬ Misframed x.store x.input) : InStep (n + 1) client (x.serve client') := by
  unfold Turn.serve
  split_ifs with hopen
  · obtain ⟨bytes, replies, hsent, hparse⟩ :=
      h.resolve_left fun hclosed => Bool.false_ne_true (hclosed.symm.trans hopen)
    have hone :=
      @oneReply_of_not_misframed x.env x.stale x.store (x.client client') x.base x.nmemb hx
    rcases hone with hclosed | ⟨reply, ⟨r, hr⟩, hsent'⟩
    · exact Or.inl hclosed
    · refine Or.inr ⟨bytes ++ reply, replies ++ [r], ?_, parseReplies_append hparse hr⟩
      rw [hsent', Turn.client, hsent, List.append_assoc]
  · exact Or.inl (Bool.eq_false_iff.mpr hopen)

theorem InStep.turns {n : ℕ} {client client' : Client} (h : InStep n client client')
    {turns : List Turn} (hok : ∀ x ∈ turns, ¬ Misframed x.store x.input) :
    InStep (n + turns.length) client (turns.foldl Turn.serve client') := by
  induction turns generalizing n client' with
  | nil => exact h
  | cons x turns ih =>
    have hrest := ih (h.serve (hok x List.mem_cons_self)) fun y hy =>
      hok y (List.mem_cons_of_mem _ hy)
    rwa [List.length_cons, Nat.add_comm turns.length, ← Nat.add_assoc]

/-- A worker closes the connection or sends one reply just when the request is neither an NFO about
a key that is not there nor a LST of the keys without some tags nor one that is cut short. A client
whose requests are none of these can tell its replies from each other. -/
theorem oneReply_iff (env : Env) (s : Store) (client : Client) (hopen : client.isOpen = true) :
    (AlwaysOneReply env s client ↔ ¬ Misframed s client.input) ∧
      ∀ turns : List Turn, (∀ x ∈ turns, ¬ Misframed x.store x.input) →
        InStep turns.length client (turns.foldl Turn.serve client) := by
  refine ⟨⟨fun h hmis => not_alwaysOneReply hopen hmis h, fun h sends stale base nmemb => ?_⟩,
    fun turns hok => ?_⟩
  · exact @oneReply_of_not_misframed env stale s { client with sends := sends } base nmemb h
  · have hnil : InStep 0 client client := Or.inr ⟨[], [], (List.append_nil _).symm, rfl⟩
    have hturns := hnil.turns hok
    rwa [Nat.zero_add] at hturns

/-- An NFO about the server, to an empty store. -/
theorem oneReply_nfo : AlwaysOneReply (Memory.env (initMemory 0) 0) Store.init
    (openFile ((Cmd.nfo []).request.toBytes ++ (Cmd.nfo []).body)) := by
  refine (oneReply_iff _ _ _ rfl).1.mpr ?_
  rintro ⟨-, -, ⟨hop, -⟩ | ⟨-, hpos, -⟩⟩
  · exact absurd hop (by decide)
  · exact absurd hpos (by decide)

/-- An NFO about a key, to an empty store. -/
theorem not_oneReply_nfo : ¬ AlwaysOneReply (Memory.env (initMemory 0) 0) Store.init
    (openFile ((Cmd.nfo [0x61]).request.toBytes ++ (Cmd.nfo [0x61]).body)) :=
  not_alwaysOneReply rfl
    ⟨by decide, ⟨by decide, by decide, by decide⟩, Or.inr ⟨by decide, by decide, by decide,
    Store.current_init _⟩⟩

end Cik

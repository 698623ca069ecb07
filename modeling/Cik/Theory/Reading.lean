import Cik.Theory.Handling

/-!
# What a handler does to its client

A handler reads from its client, whatever the request, and does nothing else with it:
it sends nothing, and does not close the connection (`handleRequest_readTo`). In
particular a stream that is read in full, such as a file, stays one
(`Client.Full.readTo`).
-/

namespace Cik

/-- `c'` is the client `c` after some reads. -/
def Client.ReadTo (c c' : Client) : Prop := ∃ n k, c' = c.advance n fun i => c.reads (i + k)

namespace Client.ReadTo

variable {c c' c'' : Client}

theorem refl (c : Client) : c.ReadTo c := ⟨0, 0, rfl⟩

theorem trans (h : c.ReadTo c') (h' : c'.ReadTo c'') : c.ReadTo c'' := by
  obtain ⟨n, k, rfl⟩ := h
  obtain ⟨n', k', rfl⟩ := h'
  refine ⟨n + n', k' + k, ?_⟩
  simp only [advance, List.drop_drop, Nat.add_assoc]

theorem sent_eq (h : c.ReadTo c') : c'.sent = c.sent := by
  obtain ⟨n, k, rfl⟩ := h
  rfl

theorem isOpen_eq (h : c.ReadTo c') : c'.isOpen = c.isOpen := by
  obtain ⟨n, k, rfl⟩ := h
  rfl

theorem sends_eq (h : c.ReadTo c') : c'.sends = c.sends := by
  obtain ⟨n, k, rfl⟩ := h
  rfl

theorem read (c : Client) (n : ℕ) : c.ReadTo (c.read n).2 := by
  by_cases h : c.input = []
  · rw [Client.read, if_pos h]
    exact refl c
  · rw [Client.read, if_neg h]
    exact ⟨min n (max 1 (c.reads 0)), 1, rfl⟩

theorem readLoop (fuel : ℕ) (c : Client) (n : ℕ) (acc : List UInt8) :
    c.ReadTo (readLoop fuel c n acc).2.2 := by
  induction fuel generalizing c n acc with
  | zero => exact refl c
  | succ fuel ih =>
    have hr := read c n
    rw [Cik.readLoop]
    cases hread : c.read n with
    | mk bs c' =>
      rw [hread] at hr
      cases bs with
      | none => exact hr
      | some bs =>
        simp only
        split_ifs
        · exact hr
        · exact hr.trans (ih c' _ _)
        · exact hr

theorem readRequestPayload (c : Client) (n : ℕ) : c.ReadTo (readRequestPayload c n).2.2 := by
  unfold Cik.readRequestPayload
  split_ifs
  · exact refl c
  · exact readLoop _ c n []

theorem readRequestKey (c : Client) (klen : UInt8) : c.ReadTo (readRequestKey c klen).2.2 := by
  have hr := readRequestPayload c klen.toNat
  unfold Cik.readRequestKey
  split
  · rename_i h
    rwa [h] at hr
  · rename_i h
    rwa [h] at hr

theorem readTagsLoop (ntags : ℕ) (c : Client) (base : ByteMemory) (buffer cap : ℕ)
    (tags : List Slice) :
    c.ReadTo (readTagsLoop ntags c base buffer cap tags).client := by
  induction ntags generalizing c base buffer cap tags with
  | zero => exact refl c
  | succ ntags ih =>
    have h₁ := readRequestPayload c 1
    rw [Cik.readTagsLoop]
    split
    · rename_i bs c₁ he
      rw [he] at h₁
      simp only
      split_ifs
      · exact h₁
      · have h₂ := readRequestPayload c₁ (bs.headD 0).toNat
        split
        · rename_i he'
          rw [he'] at h₂
          exact (h₁.trans h₂).trans (ih _ _ _ _ _)
        · rename_i he'
          rw [he'] at h₂
          exact h₁.trans h₂
    · rename_i he
      rwa [he] at h₁

theorem readTagsUsingPayloadBuffer (ctx : Ctx) (ntags : UInt8) :
    ctx.client.ReadTo (readTagsUsingPayloadBuffer ctx ntags).2.2.client :=
  readTagsLoop _ _ _ _ _ _

end Client.ReadTo

section Handlers

open Client

variable (env : Env) (ctx : Ctx) (r : Request)

theorem handleGetRequest_readTo : ctx.client.ReadTo (handleGetRequest env ctx r).ctx.client := by
  have h := ReadTo.readRequestKey ctx.client r.gKlen
  unfold handleGetRequest
  simp only
  split
  · rename_i key client he
    rw [he] at h
    split
    · exact h
    · split_ifs <;> exact h
  · rename_i he
    rwa [he] at h

theorem handleSetRequest_readTo : ctx.client.ReadTo (handleSetRequest env ctx r).ctx.client := by
  have h := ReadTo.readRequestKey ctx.client r.sKlen
  unfold handleSetRequest
  simp only
  split
  · rename_i key client he
    rw [he] at h
    split_ifs
    · split <;> exact h
    · have ht := ReadTo.readTagsUsingPayloadBuffer ⟨ctx.store, client, ctx.payload_buffer⟩ r.sNtags
      split
      · rename_i slices ctx' he'
        rw [he'] at ht
        split
        · exact h.trans ht
        · have hv := ReadTo.readRequestPayload ctx'.client (ntohl r.sVlen).toNat
          split
          · rename_i he''
            rw [he''] at hv
            exact (h.trans ht).trans hv
          · rename_i he''
            rw [he''] at hv
            exact (h.trans ht).trans hv
      · rename_i he'
        rw [he'] at ht
        exact h.trans ht
  · rename_i he
    rwa [he] at h

theorem handleDelRequest_readTo : ctx.client.ReadTo (handleDelRequest ctx r).ctx.client := by
  have h := ReadTo.readRequestKey ctx.client r.dKlen
  unfold handleDelRequest
  split
  · rename_i he
    rwa [he] at h
  · rename_i he
    rwa [he] at h

theorem handleClrRequest_readTo : ctx.client.ReadTo (handleClrRequest env ctx r).ctx.client := by
  have h := ReadTo.readTagsUsingPayloadBuffer ctx r.cNtags
  unfold handleClrRequest
  simp only
  split
  · rename_i slices ctx' he
    rw [he] at h
    have hs (status : StatusCode) (s : Store) :
        ctx.client.ReadTo (Handled.mk status .null { ctx' with store := s }).ctx.client := h
    split_ifs
    · exact hs _ _
    · exact hs _ _
    · exact hs _ _
    · exact hs _ _
    · exact hs _ _
    · exact hs _ ctx'.store
  · rename_i he
    rwa [he] at h

theorem handleLstRequest_readTo : ctx.client.ReadTo (handleLstRequest ctx r).ctx.client := by
  have h := ReadTo.readTagsUsingPayloadBuffer ctx r.cNtags
  unfold handleLstRequest
  simp only
  split
  · rename_i slices ctx' he
    rw [he] at h
    have hs (status : StatusCode) (ptr : PayloadPtr) (data : ListData) (nmemb : ℕ) :
        ctx.client.ReadTo (Handled.mk status ptr (ctx'.listed data nmemb)).ctx.client := h
    split_ifs
    · exact hs _ _ _ _
    · exact hs _ _ _ _
    · exact hs _ _ _ _
    · exact hs _ _ _ _
    · exact hs _ _ _ _
    · exact h
  · rename_i he
    rwa [he] at h

theorem handleNfoRequest_readTo : ctx.client.ReadTo (handleNfoRequest env ctx r).ctx.client := by
  have h := ReadTo.readRequestKey ctx.client r.nKlen
  unfold handleNfoRequest
  simp only
  split_ifs
  · split
    · rename_i he
      rw [he] at h
      split <;> exact h
    · rename_i he
      rwa [he] at h
  · exact ReadTo.refl _

/-- Whatever the request, its handler reads from the client and does nothing else to it. -/
theorem handleRequest_readTo : ctx.client.ReadTo (handleRequest env ctx r).ctx.client := by
  unfold handleRequest
  split_ifs
  · exact ReadTo.refl _
  · exact handleGetRequest_readTo env ctx r
  · exact handleSetRequest_readTo env ctx r
  · exact handleDelRequest_readTo ctx r
  · exact handleClrRequest_readTo env ctx r
  · exact handleLstRequest_readTo ctx r
  · exact handleNfoRequest_readTo env ctx r
  · exact ReadTo.refl _

end Handlers

/-! ### Whether there is enough -/

section Enough

variable {c : Client}

/-- A read of more than there is gets all there is, and fails. -/
theorem readRequestPayload_starved {n : ℕ} (h : c.input.length < n) :
    ∃ status bs c', readRequestPayload c n = (status, bs, c') ∧ status ≠ .ok ∧ c'.input = [] := by
  obtain ⟨reads, hr⟩ := readRequestPayload_of_lt h
  exact ⟨_, _, _, hr, c.endStatus_ne_ok, List.drop_length⟩

theorem length_of_readRequestPayload {c c' : Client} {n : ℕ} {bs : List UInt8}
    (h : readRequestPayload c n = (.ok, bs, c')) : bs.length = n := by
  rcases Nat.lt_or_ge c.input.length n with hlt | hle
  · obtain ⟨reads, hr⟩ := readRequestPayload_of_lt hlt
    rw [hr, Prod.mk.injEq] at h
    exact absurd h.1 c.endStatus_ne_ok
  · obtain ⟨reads, hr⟩ := readRequestPayload_of_le hle
    rw [hr, Prod.mk.injEq, Prod.mk.injEq] at h
    rw [← h.2.1, List.length_take, min_eq_left hle]

/-- What was asked for is read, or the connection is to be closed. -/
theorem status_readRequestPayload (c : Client) (n : ℕ) :
    (readRequestPayload c n).1 = .ok ∨
    (readRequestPayload c n).1.has MASK_INTERNAL_ERROR = true := by
  rcases Nat.lt_or_ge c.input.length n with hlt | hle
  · obtain ⟨reads, hr⟩ := readRequestPayload_of_lt hlt
    rw [hr]
    exact Or.inr c.endStatus_has_internal
  · obtain ⟨reads, hr⟩ := readRequestPayload_of_le hle
    rw [hr]
    exact Or.inl rfl

theorem status_readRequestKey (c : Client) (klen : UInt8) :
    (readRequestKey c klen).1 = (readRequestPayload c klen.toNat).1 := by
  unfold readRequestKey
  split
  · rename_i h
    rw [h]
  · rename_i h
    rw [h]

end Enough

/-! ### Files -/

/-- Every read from the client gets all it asks for, up to the end of what there is. -/
def Client.Full (c : Client) : Prop := c.isClosed = true ∧ ∀ i, c.input.length ≤ c.reads i

theorem full_openFile (contents : List UInt8) : (openFile contents).Full := ⟨rfl, fun _ => le_rfl⟩

theorem Client.Full.readTo {c c' : Client} (h : c.Full) (hr : c.ReadTo c') : c'.Full := by
  obtain ⟨n, k, rfl⟩ := hr
  refine ⟨h.1, fun i => le_trans ?_ (h.2 _)⟩
  simp only [advance, List.length_drop]
  omega

/-- A read at the end of a file gets nothing. -/
theorem Client.Full.read_nil {c : Client} (h : c.Full) (hin : c.input = []) (n : ℕ) :
    c.read n = (some [], c) := by
  rw [Client.read, if_pos hin, if_pos h.1]

/-- A read before the end of a file gets what it asks for, as far as there is so much. -/
theorem Client.Full.read {c : Client} (h : c.Full) (hne : c.input ≠ []) (n : ℕ) :
    ∃ reads, c.read n = (some (c.input.take n), c.advance n reads) := by
  have hfull := h.2 0
  refine ⟨fun i => c.reads (i + 1), ?_⟩
  rw [Client.read, if_neg hne]
  rcases le_total n (max 1 (c.reads 0)) with hn | hn
  · rw [min_eq_left hn]
    rfl
  · -- there are no more bytes than the read may transfer
    have hk : c.input.length ≤ max 1 (c.reads 0) := by omega
    rw [min_eq_right hn]
    simp only [advance, List.take_of_length_le hk, List.take_of_length_le (hk.trans hn),
      List.drop_of_length_le hk, List.drop_of_length_le (hk.trans hn)]

theorem Client.Full.read_append {c : Client} (h : c.Full) {bs rest : List UInt8}
    (hin : c.input = bs ++ rest) (hne : bs ≠ []) :
    ∃ reads, c.read bs.length = (some bs, c.advance bs.length reads) := by
  obtain ⟨reads, hr⟩ := h.read (by simp [hin, hne]) bs.length
  exact ⟨reads, by rw [hr, hin, List.take_left]⟩

end Cik

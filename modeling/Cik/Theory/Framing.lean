import Cik.Theory.Handling

/-!
# Where the next request begins

A worker that keeps a connection open after a request reads the next header from where
the handler stopped reading. `FrameKept` says that this is the end of the request. It
is, whatever the store and the allocator are like, but for one request: a SET with a
value that is refused memory leaves its value in the stream, and the worker takes the
value's bytes for requests (`frameKept_iff`).
-/

namespace Cik

/-- A worker reads a header and handles the request; and unless that closes the connection, `rest`
is what is left of the stream. -/
def FrameKept (env : Env) (ctx : Ctx) (rest : List UInt8) : Prop :=
  ∃ bs client, readRequestPayload ctx.client 16 = (.ok, bs, client) ∧
    let h := handleRequest env (ctx.withClient client) (Request.ofBytes bs)
    (h.status.has MASK_INTERNAL_ERROR = false → h.ctx.client.input = rest)

section Framing

variable {env : Env} {ctx : Ctx} {r : Request} {c : Cmd} {rest : List UInt8}

/-- Only a SET that is refused memory leaves something unread, and it does not close the
connection. -/
theorem exec_of_unread_ne_nil {s : Store} (h : c.unread env ≠ []) :
    (c.exec env s).1 = .outOfMemory := by
  cases c with
  | set key tags value ttl =>
    simp only [Cmd.unread] at h
    cases hr : env.reserve (requestSize key tags value) with
    | none => simp only [Cmd.exec, hr]
    | some n => simp [hr] at h
  | _ => exact absurd rfl h

/-- The frame is kept when nothing of the request is left unread. -/
theorem frameKept_iff_unread (h : Header r c) (hc : c.WF)
    (hcap : ctx.payload_buffer.cap = MAX_BUCKET_SIZE)
    (hin : ctx.client.input = r.toBytes ++ (c.body ++ rest)) : FrameKept env ctx rest ↔
    c.unread env = [] := by
  obtain ⟨reads, hread⟩ := readRequestPayload_append hin (n := 16) r.length_toBytes.symm
  have hrest := Client.advance_input hin (n := 16) r.length_toBytes.symm reads
  have ha :
    (handleRequest env (ctx.withClient (ctx.client.advance 16 reads)) r).Answers
    (c.exec env ctx.store)
      (c.unread env ++ rest) := handleRequest_answers h hc hrest hcap
  constructor
  · rintro ⟨bs, client, hread', hkept⟩
    rw [hread, Prod.mk.injEq, Prod.mk.injEq] at hread'
    obtain ⟨-, rfl, rfl⟩ := hread'
    rw [r.ofBytes_toBytes] at hkept
    by_contra hne
    have hstatus := ha.status.trans (exec_of_unread_ne_nil hne)
    have hinput := ha.input.symm.trans (hkept (by rw [hstatus]; rfl))
    exact hne (List.append_left_eq_self.mp hinput)
  · intro hnil
    refine ⟨_, _, hread, fun _ => ?_⟩
    rw [r.ofBytes_toBytes, ha.input, hnil, List.nil_append]

/-- A request is read to its end and no further, unless it is a SET with a value that is refused
memory. -/
theorem frameKept_iff (h : Header r c) (hc : c.WF) (hcap : ctx.payload_buffer.cap = MAX_BUCKET_SIZE)
    (hin : ctx.client.input = r.toBytes ++ (c.body ++ rest)) :
    FrameKept env ctx rest ↔ ∀ key tags value ttl, c = .set key tags value ttl →
      value = [] ∨ (env.reserve (requestSize key tags value)).isSome := by
  rw [frameKept_iff_unread h hc hcap hin]
  cases c with
  | set key tags value ttl =>
    simp only [Cmd.unread, ite_eq_left_iff]
    constructor
    · rintro hkept _ _ _ _ ⟨⟩
      by_cases hr : (env.reserve (requestSize key tags value)).isSome
      · exact Or.inr hr
      · exact Or.inl (hkept hr)
    · intro hcond hr
      exact (hcond key tags value ttl rfl).resolve_right hr
  | _ =>
    refine iff_of_true rfl ?_
    rintro _ _ _ _ ⟨⟩

end Framing

/-- A SET of the value `X`. -/
def setX : Cmd := .set [0x61] [] [0x58] 0

theorem setX_wf : setX.WF := ⟨by decide, by decide, by decide⟩

theorem requestSize_setX : (requestSize [0x61] [] [0x58]).toNat ≤ MAX_BUCKET_SIZE := by
  rw [requestSize_toNat (by decide) (by decide)]
  decide

/-- At start-up there is memory for it, and it is read to its end. -/
theorem frameKept_iff_setX : FrameKept (Memory.env (initMemory 0) 0)
    ⟨Store.init, openFile (setX.request.toBytes ++ (setX.body ++ [])),
      reserveBiggestPossiblePayload fun _ => 0⟩ [] :=
  (frameKept_iff (Cmd.header_request setX_wf) setX_wf rfl rfl).mpr fun _ _ _ _ h => by
    cases h
    exact Or.inr (env_initMemory_grants 0 0 _ requestSize_setX)

/-- A process that has no memory left. -/
def exhausted (now : Time) : Env where
  now := now
  reserve := fun _ => none
  info := ⟨0, 0, 0, 0⟩
  fits := nofun

/-- When no memory is left, the value of a SET stays in the stream and the connection open. -/
theorem not_frameKept_setX :
    ¬ ∀ (env : Env) (ctx : Ctx) (r : Request) (c : Cmd) (rest : List UInt8),
    Header r c → c.WF → ctx.payload_buffer.cap = MAX_BUCKET_SIZE →
    ctx.client.input = r.toBytes ++ (c.body ++ rest) → FrameKept env ctx rest := by
  intro h
  have hkept := h (exhausted 0)
    ⟨Store.init, openFile (setX.request.toBytes ++ (setX.body ++ [])),
      reserveBiggestPossiblePayload fun _ => 0⟩
    setX.request setX [] (Cmd.header_request setX_wf) setX_wf rfl rfl
  rw [frameKept_iff_unread (Cmd.header_request setX_wf) setX_wf rfl rfl] at hkept
  exact absurd hkept (by decide)

end Cik

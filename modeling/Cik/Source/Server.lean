import Cik.Source.Controller

/-!
# The server

What a worker does when a client can be read from (`process_worker_events` of
`server.c`), and how the file of the last run is loaded at start-up
(`load_request_log`). A worker serves one event after the other, so one event is
modelled; accepting connections and waiting for events are left out.

A LST that lists the keys without some tags has the worker send the payload from
`alt_payload`, a local variable of `handle_lst_request`, which is gone by then. What
is read from there is given by `StaleReads`, of which nothing is assumed.
-/

namespace Cik

/-- What the worker reads through a pointer to a variable that is gone. -/
structure StaleReads where
  /-- `payload->nmemb`, for the header of the response. -/
  size : UInt32
  /-- The `payload->nmemb` bytes at `payload->base`, when they are sent. -/
  bytes : List UInt8

/-- `reserve_biggest_possible_payload`: the buffer, with what its bytes happen to be. -/
def reserveBiggestPossiblePayload (base : ByteMemory) : Payload := ⟨base, 0, MAX_BUCKET_SIZE⟩

namespace Handled

/-- `(payload == NULL) ? 0 : payload->nmemb`. -/
def payloadSize (h : Handled) (stale : StaleReads) : UInt32 :=
  match h.response_payload with
  | .null => 0
  | .payloadBuffer => UInt32.ofNat h.ctx.payload_buffer.nmemb
  | .altPayload => stale.size

/-- The bytes at `payload->base`. -/
def payloadBytes (h : Handled) (stale : StaleReads) : List UInt8 :=
  match h.response_payload with
  | .null => []
  | .payloadBuffer => h.ctx.payload_buffer.base.read 0 h.ctx.payload_buffer.nmemb
  | .altPayload => stale.bytes

/-- The response that the worker makes. -/
def response (h : Handled) (stale : StaleReads) : List UInt8 :=
  if h.status.has (MASK_CLIENT_ERROR ||| MASK_CLIENT_MESSAGE) then makeFailureResponse h.status.code
  else makeSuccessResponse (h.payloadSize stale)

end Handled

/-- The state with another client. -/
def Ctx.withClient (ctx : Ctx) (client : Client) : Ctx := { ctx with client := client }

/-- What `process_worker_events` sends once a request is handled. -/
def writeReply (stale : StaleReads) (h : Handled) : Ctx :=
  let (status, client) := writeResponsePayload h.ctx.client (h.response stale)
  if status.has MASK_INTERNAL_ERROR then h.ctx.withClient client.close
  else if (h.payloadBytes stale).length > 0 then
    let (status, client) := writeResponsePayload client (h.payloadBytes stale)
    if status.has MASK_INTERNAL_ERROR then h.ctx.withClient client.close
      else h.ctx.withClient client
  else h.ctx.withClient client

/-- What `process_worker_events` does with a client that can be read from. When the handler does not
come to an end the process does, and the connection with it. -/
def processRequest (env : Env) (stale : StaleReads) (ctx : Ctx) : Ctx :=
  let (status, bs, client) := readRequestPayload ctx.client 16
  if status.has MASK_INTERNAL_ERROR then ctx.withClient client.close
  else if readsEmptyName client ctx.payload_buffer (Request.ofBytes bs)
    then ctx.withClient client.close
  else
    let h := handleRequest env (ctx.withClient client) (Request.ofBytes bs)
    if h.status.has MASK_INTERNAL_ERROR then h.ctx.withClient h.ctx.client.close
    else writeReply stale h

/-! ### Loading -/

/-- The header, with the bytes that a read put over it. -/
def Request.overlay (request : Request) (bs : List UInt8) : Request :=
  ⟨fun i => bs.getD i (request.bytes i)⟩

/-- The loop of `load_request_log`. -/
def loadLoop : ℕ → (ℕ → Env) → Ctx → Request → Ctx
  | 0, _, ctx, _ => ctx
  | fuel + 1, envs, ctx, request =>
    match ctx.client.read 16 with
    | (some bs, client) =>
      if bs.length = 0 then ctx.withClient client
      else
        let request := request.overlay bs
        loadLoop fuel (fun i => envs (i + 1))
          (handleRequest (envs 0) (ctx.withClient client) request).ctx request
    | (none, client) =>
      loadLoop fuel (fun i => envs (i + 1))
        (handleRequest (envs 0) (ctx.withClient client) request).ctx request

/-- A file opened for reading. A read gets all it asks for, up to the end of the file. -/
def openFile (contents : List UInt8) : Client where
  input := contents
  isClosed := true
  reads := fun _ => contents.length
  sent := []
  sends := fun _ => none
  isOpen := true

/-- `load_request_log`, where no name in the file is empty. The worker's buffer and the request have
no initial values. Each round reads a byte at least, so the loop ends before the bytes and one are
used up. -/
def loadRequestLog (envs : ℕ → Env) (s : Store) (base : ByteMemory) (request : Request)
    (contents : List UInt8) :
    Store :=
  (loadLoop (contents.length + 1) envs ⟨s, openFile contents, reserveBiggestPossiblePayload base⟩
    request).store

end Cik

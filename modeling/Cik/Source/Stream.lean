import Cik.Source.Types

/-!
# Reading from and writing to a client

`read_request_payload` and `write_response_payload` of `server.c`. A `read` may
transfer fewer bytes than it was asked for, so may a `send`; the functions go on
until all are transferred, or the peer closes, or the system reports an error. How
much each call transfers is given by a schedule, of which nothing is assumed:
`readRequestPayload_of_le` and `readRequestPayload_of_lt` say what is read without
it, and `writeResponsePayload_sent` what is sent.
-/

namespace Cik

/-- A client's connection. -/
structure Client where
  /-- The bytes still to be read. -/
  input : List UInt8
  /-- What a read answers once they are used up: `STATUS_CONNECTION_CLOSED` when it
  answers `0`, `STATUS_NETWORK_ERROR` when it fails. -/
  isClosed : Bool
  /-- The `k`th read transfers at most `reads k` bytes, but at least one. -/
  reads : ℕ → ℕ
  /-- The bytes sent. -/
  sent : List UInt8
  /-- What the `k`th send answers: it fails, or transfers at most so many bytes. -/
  sends : ℕ → Option ℕ
  /-- Whether the file descriptor is still open. -/
  isOpen : Bool

namespace Client

/-- `read`: `none` when it fails, otherwise the bytes transferred. -/
def read (c : Client) (n : ℕ) : Option (List UInt8) × Client :=
  if c.input = [] then (if c.isClosed then some [] else none, c)
  else
    let k := min n (max 1 (c.reads 0))
    (some (c.input.take k), { c with input := c.input.drop k, reads := fun i => c.reads (i + 1) })

/-- `send`: `none` when it fails, otherwise how many of the bytes were transferred. -/
def send (c : Client) (bs : List UInt8) : Option ℕ × Client :=
  match c.sends 0 with
  | none => (none, { c with sends := fun i => c.sends (i + 1) })
  | some n =>
    let k := min n bs.length
    (some k, { c with sent := c.sent ++ bs.take k, sends := fun i => c.sends (i + 1) })

/-- `close_client`. -/
def close (c : Client) : Client := { c with isOpen := false }

/-- What a read that gets nothing is answered with. -/
def endStatus (c : Client) : StatusCode := if c.isClosed then .connectionClosed else .networkError

end Client

/-- The loop of `read_request_payload`; `acc` is what was read before. -/
def readLoop : ℕ → Client → ℕ → List UInt8 → StatusCode × List UInt8 × Client
  | 0, c, _, acc => (.ok, acc, c)
  | fuel + 1, c, remaining_size, acc =>
    match c.read remaining_size with
    | (none, c) => (.networkError, acc, c)
    | (some bs, c) =>
      if bs.length = 0 then (.connectionClosed, acc, c)
      else if remaining_size - bs.length > 0 then
        readLoop fuel c (remaining_size - bs.length) (acc ++ bs)
      else (.ok, acc ++ bs, c)

/-- `read_request_payload`. Each round reads a byte at least, so `nmemb` rounds do. -/
def readRequestPayload (c : Client) (nmemb : ℕ) : StatusCode × List UInt8 × Client :=
  if nmemb = 0 then (.ok, [], c) else readLoop nmemb c nmemb []

/-- The loop of `write_response_payload`. -/
def writeLoop : ℕ → Client → List UInt8 → StatusCode × Client
  | 0, c, _ => (.ok, c)
  | fuel + 1, c, bs =>
    match c.send bs with
    | (none, c) => (.networkError, c)
    | (some nsent, c) =>
      if nsent = 0 then (.connectionClosed, c)
      else if bs.length - nsent > 0 then writeLoop fuel c (bs.drop nsent)
      else (.ok, c)

/-- `write_response_payload`. -/
def writeResponsePayload (c : Client) (bs : List UInt8) : StatusCode × Client :=
  if bs.length = 0 then (.ok, c) else writeLoop bs.length c bs

/-! ### What is read -/

/-- The client after `n` bytes were read, with the rest of its schedule `reads`. -/
def Client.advance (c : Client) (n : ℕ) (reads : ℕ → ℕ) : Client :=
  { c with input := c.input.drop n, reads := reads }

theorem readLoop_of_le {fuel : ℕ} {c : Client} {n : ℕ} (acc : List UInt8) (h₀ : 0 < n)
    (hf : n ≤ fuel) (h : n ≤ c.input.length) :
    ∃ reads, readLoop fuel c n acc = (.ok, acc ++ c.input.take n, c.advance n reads) := by
  induction fuel generalizing c n acc with
  | zero => omega
  | succ fuel ih =>
    have hne : c.input ≠ [] := fun h' => by rw [h', List.length_nil] at h; omega
    obtain ⟨k, hk₁, hkn, hread⟩ : ∃ k, 1 ≤ k ∧ k ≤ n ∧ c.read n =
        (some (c.input.take k), c.advance k fun i => c.reads (i + 1)) :=
      ⟨min n (max 1 (c.reads 0)), by omega, by omega, by rw [Client.read, if_neg hne]; rfl⟩
    have hlen : (c.input.take k).length = k := by rw [List.length_take]; omega
    simp only [readLoop, hread, hlen]
    rw [if_neg (by omega)]
    split_ifs with hrest
    · -- some are left: the next rounds read them
      obtain ⟨reads, hr⟩ :=
        ih (c := c.advance k fun i => c.reads (i + 1)) (acc ++ c.input.take k) hrest
        (by omega) (by simp only [Client.advance, List.length_drop]; omega)
      refine ⟨reads, hr.trans ?_⟩
      have hn : k + (n - k) = n := by omega
      simp only [Client.advance, List.append_assoc, List.drop_drop, ← List.take_add, hn]
    · obtain rfl : k = n := by omega
      exact ⟨_, rfl⟩

theorem readLoop_of_lt {fuel : ℕ} {c : Client} {n : ℕ} (acc : List UInt8) (hf : n ≤ fuel)
    (h : c.input.length < n) :
    ∃ reads, readLoop fuel c n acc =
      (c.endStatus, acc ++ c.input, c.advance c.input.length reads) := by
  induction fuel generalizing c n acc with
  | zero => omega
  | succ fuel ih =>
    by_cases hne : c.input = []
    · refine ⟨c.reads, ?_⟩
      have hc : c.advance c.input.length c.reads = c := by
        simp only [Client.advance, List.drop_length]
        rw [← hne]
      rw [hc, hne, List.append_nil]
      cases hcl : c.isClosed <;> simp [readLoop, Client.read, hne, hcl, Client.endStatus]
    · have hpos : 0 < c.input.length := List.length_pos_iff.mpr hne
      obtain ⟨k, hk₁, hkn, hread⟩ : ∃ k, 1 ≤ k ∧ k ≤ n ∧ c.read n =
          (some (c.input.take k), c.advance k fun i => c.reads (i + 1)) :=
        ⟨min n (max 1 (c.reads 0)), by omega, by omega, by rw [Client.read, if_neg hne]; rfl⟩
      simp only [readLoop, hread, List.length_take]
      rw [if_neg (by omega), if_pos (by omega)]
      obtain ⟨reads, hr⟩ :=
        ih (c := c.advance k fun i => c.reads (i + 1)) (n := n - min k c.input.length)
        (acc ++ c.input.take k) (by omega) (by simp only [Client.advance, List.length_drop]; omega)
      refine ⟨reads, hr.trans ?_⟩
      simp only [Client.advance, Client.endStatus, List.append_assoc, List.take_append_drop,
        List.length_drop, List.drop_drop, List.drop_length, Prod.mk.injEq, true_and]
      rw [List.drop_eq_nil_of_le (by omega)]
      exact ⟨rfl, rfl⟩

/-- When enough bytes are there, exactly the next `n` are read. -/
theorem readRequestPayload_of_le {c : Client} {n : ℕ} (h : n ≤ c.input.length) :
    ∃ reads, readRequestPayload c n = (.ok, c.input.take n, c.advance n reads) := by
  rw [readRequestPayload]
  split_ifs with h₀
  · exact ⟨c.reads, by rw [h₀]; rfl⟩
  · simpa using readLoop_of_le [] (Nat.pos_of_ne_zero h₀) (Nat.le_refl _) h

/-- When too few are there, all of them are read and the end is reported. -/
theorem readRequestPayload_of_lt {c : Client} {n : ℕ} (h : c.input.length < n) :
    ∃ reads, readRequestPayload c n = (c.endStatus, c.input, c.advance c.input.length reads) := by
  rw [readRequestPayload, if_neg (by omega)]
  simpa using readLoop_of_lt [] (Nat.le_refl _) h

theorem Client.endStatus_has_internal (c : Client) :
    c.endStatus.has MASK_INTERNAL_ERROR = true := by
  unfold Client.endStatus
  split_ifs <;> decide

theorem Client.endStatus_ne_ok (c : Client) : c.endStatus ≠ .ok := by
  unfold Client.endStatus
  split_ifs <;> decide

/-! ### What is sent -/

/-- A write changes what was sent, and the schedule, but nothing else. -/
theorem writeLoop_spec (fuel : ℕ) (c : Client) (bs : List UInt8) (hf : bs.length ≤ fuel)
    (h₀ : 0 < bs.length) :
    ∃ n sends, (writeLoop fuel c bs).2 = { c with sent := c.sent ++ bs.take n, sends := sends } ∧
      (((writeLoop fuel c bs).1 = .ok ∧ bs.take n = bs) ∨
        (writeLoop fuel c bs).1.has MASK_INTERNAL_ERROR = true) := by
  induction fuel generalizing c bs with
  | zero => omega
  | succ fuel ih =>
    cases hs : c.sends 0 with
    | none =>
      refine ⟨0, fun i => c.sends (i + 1), ?_, Or.inr ?_⟩
      · simp [writeLoop, Client.send, hs]
      · simp [writeLoop, Client.send, hs, StatusCode.has_internal_iff]
    | some n =>
      simp only [writeLoop, Client.send, hs]
      split_ifs with hz hrest
      · refine ⟨0, fun i => c.sends (i + 1), ?_, Or.inr (by simp [StatusCode.has_internal_iff])⟩
        simp only [hz, List.take_zero]
      · obtain ⟨m, sends, h₁, h₂⟩ := ih
          { c with sent := c.sent ++ bs.take (min n bs.length), sends := fun i => c.sends (i + 1) }
          (bs.drop (min n bs.length)) (by rw [List.length_drop]; omega)
          (by rw [List.length_drop]; omega)
        refine ⟨min n bs.length + m, sends, ?_, h₂.imp (And.imp_right fun h => ?_) id⟩
        · rw [h₁]
          simp only [List.append_assoc, ← List.take_add]
        · rw [List.take_add, h, List.take_append_drop]
      · refine ⟨min n bs.length, fun i => c.sends (i + 1), rfl, Or.inl ⟨rfl, ?_⟩⟩
        exact List.take_of_length_le (by omega)

/-- Either all bytes are sent, or an internal error is reported. -/
theorem writeResponsePayload_spec (c : Client) (bs : List UInt8) :
    ∃ n sends,
      (writeResponsePayload c bs).2 = { c with sent := c.sent ++ bs.take n, sends := sends } ∧
      (((writeResponsePayload c bs).1 = .ok ∧ bs.take n = bs) ∨
        (writeResponsePayload c bs).1.has MASK_INTERNAL_ERROR = true) := by
  rw [writeResponsePayload]
  split_ifs with h
  · have hb := List.eq_nil_of_length_eq_zero h
    subst hb
    exact ⟨0, c.sends, by simp, Or.inl ⟨rfl, rfl⟩⟩
  · exact writeLoop_spec _ c bs (Nat.le_refl _) (Nat.pos_of_ne_zero h)

end Cik

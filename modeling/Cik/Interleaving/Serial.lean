import Cik.Interleaving.Serving

/-!
# Requests one after the other

A worker takes a turn: it handles a request of a client while the others do nothing, one
operation on the shared memory after the other (`TakesTurn`). In the store of
`Cik.Source.Controller` a turn is one step (`HandlesTurn`). What the workers do in any
number of turns, from start-up on, the store does in the same turns with the same answers
(`serial_refines`), and a turn that is begun comes to its end (`turn_ends`).
-/

namespace Cik

namespace Guarded

variable {τ : Type*} {start : ℕ → Bool} {s s' : Process τ} {st : Store}

/-! ### Start-up -/

/-- What the blocks are used for at start-up. -/
def startUse (start : ℕ → Bool) (b : ℕ) : Option Use :=
  if (start b && b != root) = true then some .start else none

theorem startUse_cases (start : ℕ → Bool) (b : ℕ) :
    (start b = true ∧ b ≠ root ∧ startUse start b = some .start) ∨
    ((start b && b != root) = false ∧ startUse start b = none) := by
  unfold startUse
  split_ifs with h
  · simp only [Bool.and_eq_true, bne_iff_ne, ne_eq] at h
    exact Or.inl ⟨h.1, h.2, rfl⟩
  · exact Or.inr ⟨by simpa using h, rfl⟩

/-- At start-up the process represents the store at start-up. -/
theorem rep_init (hfin : {b | start b = true}.Finite) :
    Rep 0 (Workers.init (τ := τ) start).shared Store.init := by
  have hblocks : RepBlocks (startUse start) 0 (Workers.init (τ := τ) start).shared.live := by
    refine ⟨fun b => ?_, hfin.subset fun b hb => ?_, ?_, Multiset.nodup_zero, fun b => ?_⟩
    · change (start b && b != root) = _
      rcases startUse_cases start b with ⟨hb, hroot, hu⟩ | ⟨hb, hu⟩
      · simp [hb, hroot, hu]
      · rw [hb, hu, Option.isSome_none]
    · change (start b && b != root) = true at hb
      exact (Bool.and_eq_true_iff.mp hb).1
    · rcases startUse_cases start root with ⟨-, hroot, -⟩ | ⟨-, hu⟩
      · exact absurd rfl hroot
      · exact hu
    · rcases startUse_cases start b with ⟨-, -, hu⟩ | ⟨-, hu⟩ <;> simp [hu]
  have hmaps : RepMaps (startUse start) (Workers.init (τ := τ) start).shared.slots
      (Workers.init (τ := τ) start).shared.entries Store.init.maps :=
    ⟨by simp [Workers.init], by simp [Workers.init], fun _ => rfl⟩
  have hvalues :
    (SearchTree.node .nil rootValue root .nil : SearchTree CacheTag ℕ).toList.map Prod.snd =
    [root] := rfl
  have hindex :
    RepIndex (startUse start) (.node .nil rootValue root .nil)
    (Workers.init (τ := τ) start).shared.tag
      (Workers.init (τ := τ) start).shared.child
      (Workers.init (τ := τ) start).shared.keys Store.init.tags := by
    refine ⟨.node .nil .nil, fun n hn hroot => ?_, fun n _ b hb => ?_,
      fun n _ => Multiset.nodup_zero, rfl, ?_⟩
    · rw [hvalues, List.mem_singleton] at hn
      exact absurd hn hroot
    · cases hb
    · intro tag key hk
      exact absurd hk not_hasKey_initTagTree
  exact ⟨_, _, hblocks, hmaps, hindex⟩

theorem free_init : Free ∅ (Workers.init (τ := τ) start).shared := by
  intro x _
  cases x <;> rfl

/-! ### Turns -/

/-- A worker's turn: a request of a client that it handles, and its surroundings. -/
structure Turn (τ : Type*) where
  /-- The worker. -/
  worker : τ
  /-- The clock, the statistics and the memory. -/
  env : Env
  /-- The client. -/
  client : Client
  /-- The worker's payload buffer, and the header of the request. -/
  call : Call

/-- What a turn comes to. -/
structure Outcome where
  /-- The worker's answer. -/
  reply : Reply
  /-- The client. -/
  client : Client

/-- The steps of a worker from the call to the return, beside which nobody takes a step. -/
def TakesTurn (s : Process τ) (a : Turn τ × Outcome) (s' : Process τ) : Prop :=
  ∃ l, (∀ x ∈ l, x.1 = a.1.worker ∧ ∀ c, x.2 ≠ .call c) ∧
    Run (Threads.Step (Prog.Serve (Op.actIn a.1.env) handleRequest))
      ⟨(s, a.1.client), fun _ => none⟩
      ((a.1.worker, .call a.1.call) :: (l ++ [(a.1.worker, .returned a.2.reply)]))
      ⟨(s', a.2.client), fun _ => none⟩

/-- How the request of a turn is handled in a store. -/
def Turn.handled (a : Turn τ) (st : Store) : Handled :=
  Cik.handleRequest a.env ⟨st, a.client, a.call.payload_buffer⟩ a.call.request

/-- What came of the handling of a request. -/
def outcomeOf (handled : Handled) : Outcome :=
  ⟨⟨handled.status, handled.response_payload, handled.ctx.payload_buffer⟩, handled.ctx.client⟩

/-- A turn as one step of the store. -/
def HandlesTurn (st : Store) (a : Turn τ × Outcome) (st' : Store) : Prop :=
  a.2 = outcomeOf (a.1.handled st) ∧ st' = (a.1.handled st).ctx.store

/-- What the handlers rely on. -/
structure Turn.Proper (a : Turn τ) : Prop where
  /-- The memory grants what is not too big. -/
  grants : a.env.Grants
  /-- No name in the request is empty. -/
  names : readsEmptyName a.client a.call.payload_buffer a.call.request = false
  /-- An entry that the request makes has less than `2 ^ 32` bytes. -/
  sized : makesOverlong a.client a.call.payload_buffer a.call.request = false

/-- The turn is a proper one. -/
def IsProper (_ : Process τ) (a : Turn τ × Outcome) : Prop := a.1.Proper

/-- What holds between two turns. -/
def Serves (s : Process τ) (st : Store) : Prop := Rep 0 s st ∧ Free ∅ s

theorem Serves.handles {a : Turn τ} (h : Serves s st) (ha : a.Proper) :
    Handles a.env a.worker s a.client (handleRequest a.call) (a.handled st) :=
  handles_request ha.grants h.1 h.2 a.call ha.names ha.sized

/-- A turn does what the store does in one step. -/
theorem Serves.turn {a : Turn τ × Outcome} (h : Serves s st) (ha : a.1.Proper)
    (hs : TakesTurn s a s') :
    ∃ st', HandlesTurn st a st' ∧ Serves s' st' := by
  classical
  obtain ⟨l, hl, hrun⟩ := hs
  cases hrun with
  | @cons _ c _ _ _ hcall hrun =>
    obtain ⟨-, hx, hc⟩ := Prog.Serve.call_iff.mp hcall.own
    have hhandles := h.handles ha
    change Completes _ _ (s, a.1.client) _ at hhandles
    rw [← show c.shared = (s, a.1.client) from hx] at hhandles
    have hagrees := hhandles.returns hc hrun hl rfl
    obtain ⟨⟨worker, env, client, call⟩, ⟨status, response_payload, payload_buffer⟩, client'⟩ := a
    obtain ⟨hstatus, hpayload, hbuffer, hclient, hrep, hfree⟩ := hagrees
    dsimp only at hstatus hpayload hbuffer hclient hrep hfree
    refine ⟨_, ⟨?_, rfl⟩, hrep, hfree⟩
    rw [hstatus, hpayload, hbuffer, hclient]
    rfl

/-- Turns do what the store does. -/
theorem Serves.run {l : List (Turn τ × Outcome)} (h : Serves s st)
    (hrun : Run (Provided IsProper TakesTurn) s l s') :
    ∃ st', Run HandlesTurn st l st' ∧ Serves s' st' := by
  have hstep (s : Process τ) (a : Turn τ × Outcome) (s' : Process τ) (st : Store) (hR : Serves s st)
      (hs : Provided IsProper TakesTurn s a s') : ∃ st', HandlesTurn st (id a) st' ∧
      Serves s' st' := hR.turn hs.1 hs.2
  have hsim := hrun.simulation hstep h
  rwa [List.map_id] at hsim

theorem exists_serves (hfin : {b | start b = true}.Finite) {l : List (Turn τ × Outcome)}
    (h : Run (Provided IsProper TakesTurn) (Workers.init start).shared l s) :
    ∃ st, Run HandlesTurn Store.init l st ∧ Serves s st := Serves.run ⟨rep_init hfin, free_init⟩ h

/-- The requests that workers handle one after the other, in the memory that they share, are
handled as they are in the store, where they are what the handlers rely on: with the same answers,
and what is left in the memory is the store. -/
theorem serial_refines (hfin : {b | start b = true}.Finite) {l : List (Turn τ × Outcome)}
    (h : Run (Provided IsProper TakesTurn) (Workers.init start).shared l s) :
    ∃ st, Run HandlesTurn Store.init l st ∧ Rep 0 s st ∧ ∀ x, s.holder x = none := by
  obtain ⟨st, hrun, hrep, hfree⟩ := exists_serves hfin h
  exact ⟨st, hrun, hrep, fun x => hfree x (by simp)⟩

/-- The workers when a turn is begun. -/
def Turn.begun [DecidableEq τ] (a : Turn τ) (s : Process τ) :
    Threads τ (Process τ × Client) (Option (Program Reply)) :=
  ⟨(s, a.client), Function.update (fun _ => none) a.worker (some (handleRequest a.call))⟩

theorem Turn.begun_loc [DecidableEq τ] (a : Turn τ) (s : Process τ) :
    (a.begun s).loc a.worker = some (handleRequest a.call) := by simp [begun]

/-- A turn is begun. -/
theorem Turn.begun_step [DecidableEq τ] (a : Turn τ) (s : Process τ) :
    Threads.Step (Prog.Serve (Op.actIn a.env) handleRequest) ⟨(s, a.client), fun _ => none⟩
      (a.worker, .call a.call) (a.begun s) := Threads.step_at a.worker rfl (.call a.call)

/-- A turn can be taken. -/
theorem Serves.exists_turn [DecidableEq τ] (h : Serves s st) {a : Turn τ} (ha : a.Proper) :
    ∃ o s', Provided IsProper TakesTurn s (a, o) s' ∧ ∃ st', Serves s' st' := by
  have hhandles := h.handles ha
  obtain ⟨l, reply, x, hl, hagrees, hrun⟩ := hhandles.exists_run (c := a.begun s) (a.begun_loc s)
  have hnone : Function.update (fun _ : τ => (none : Option (Program Reply))) a.worker none =
      fun _ => none :=
    Function.update_eq_self a.worker _
  rw [Turn.begun, Function.update_idem, hnone] at hrun
  exact ⟨⟨reply, x.2⟩, x.1, ⟨ha, l, hl, .cons (a.begun_step s) hrun⟩, _, hagrees.rep, hagrees.free⟩

/-- A turn in which a command is sent, the worker's buffer being all zeros. -/
def turnOf (cmd : Cmd) : Turn Unit where
  worker := ()
  env := Memory.env (initMemory 0) 0
  client := ⟨cmd.body, true, fun _ => 0, [], fun _ => some 0, true⟩
  call := ⟨⟨fun _ => 0, 0, MAX_BUCKET_SIZE⟩, cmd.request⟩

theorem turnOf_set_proper : (turnOf (.set [0x61] [[0x62]] [0x58] 0)).Proper :=
  ⟨env_initMemory_grants 0 0, by decide +kernel, by decide +kernel⟩

theorem turnOf_get_proper : (turnOf (.get [0x61] false)).Proper :=
  ⟨env_initMemory_grants 0 0, by decide +kernel, by decide +kernel⟩

/-- A key can be stored. -/
theorem exists_setTurn :
    ∃ o s', Provided IsProper TakesTurn (Workers.init (τ := Unit) fun _ => false).shared
    (turnOf (.set [0x61] [[0x62]] [0x58] 0), o) s' ∧ ∃ st', Serves s' st' :=
  Serves.exists_turn ⟨rep_init (by simp), free_init⟩ turnOf_set_proper

/-- A key is stored and asked for. -/
theorem serial_refines_set_get : ∃ (l : List (Turn Unit × Outcome)) (s : Process Unit) (st : Store),
    l.map Prod.fst = [turnOf (.set [0x61] [[0x62]] [0x58] 0), turnOf (.get [0x61] false)] ∧
      Run HandlesTurn Store.init l st ∧ Rep 0 s st ∧ ∀ x, s.holder x = none := by
  obtain ⟨o₁, s₁, h₁, st₁, hs₁⟩ := exists_setTurn
  obtain ⟨o₂, s₂, h₂, -⟩ := hs₁.exists_turn turnOf_get_proper
  obtain ⟨st, hst⟩ := serial_refines (by simp) (.cons h₁ (.cons h₂ (.nil s₂)))
  exact ⟨_, s₂, st, rfl, hst⟩

/-- A turn that is begun after any number of others comes to its end: its steps lead to a state
where it can go on, or where it has returned what the store answers; and it does not go on for
ever. -/
theorem turn_ends [DecidableEq τ] (hfin : {b | start b = true}.Finite) {l : List (Turn τ × Outcome)}
    (h : Run (Provided IsProper TakesTurn) (Workers.init start).shared l s) {a : Turn τ}
    (ha : a.Proper) :
    ∃ st, Run HandlesTurn Store.init l st ∧
      Acc (fun c' c => ∃ e, Completes.GoesOn (Op.actIn a.env) handleRequest a.worker c e c')
        (a.begun s) ∧
      ∀ l' c', Run (Completes.GoesOn (Op.actIn a.env) handleRequest a.worker) (a.begun s) l' c' →
        (∃ e c'', Completes.GoesOn (Op.actIn a.env) handleRequest a.worker c' e c'') ∨
          ∃ l'' reply, l' = l'' ++ [.returned reply] ∧ c'.loc a.worker = none ∧
            (⟨reply, c'.shared.2⟩ : Outcome) = outcomeOf (a.handled st) := by
  obtain ⟨st, hrun, hs⟩ := exists_serves hfin h
  have hhandles := hs.handles ha
  refine ⟨st, hrun, hhandles.acc (c := a.begun s) (a.begun_loc s), fun l' c' hrun' => ?_⟩
  refine (hhandles.settles (c := a.begun s) (a.begun_loc s) hrun').imp id ?_
  rintro ⟨l'', reply, rfl, hagrees, hnone⟩
  refine ⟨l'', reply, rfl, hnone, ?_⟩
  obtain ⟨status, response_payload, payload_buffer⟩ := reply
  obtain ⟨hstatus, hpayload, hbuffer, hclient, -, -⟩ := hagrees
  dsimp only at hstatus hpayload hbuffer
  rw [hstatus, hpayload, hbuffer, hclient]
  rfl

/-- A key is asked for after it was stored. -/
theorem turn_ends_get : ∃ s : Process Unit,
    Acc (fun c' c => ∃ e,
        Completes.GoesOn (Op.actIn (turnOf (.get [0x61] false)).env) handleRequest () c e c')
      ((turnOf (.get [0x61] false)).begun s) := by
  obtain ⟨o₁, s₁, h₁, -⟩ := exists_setTurn
  obtain ⟨-, -, hacc, -⟩ := turn_ends (by simp) (.cons h₁ (.nil s₁)) turnOf_get_proper
  exact ⟨s₁, hacc⟩

end Guarded

end Cik

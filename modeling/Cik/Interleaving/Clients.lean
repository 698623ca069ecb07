import Cik.Library.Threads
import Mathlib.Data.Int.Notation

/-!
# The client slots under interleaving

`wait_for_new_connection`, `close_client` and what a worker does with a client, of
`server.c`, with a step for each statement that reads or writes a slot. A slot is free
when its `fd` is `-1`; `close_client` stores that first and clears `worker` after it, so
the accept thread may take the slot in between, and the `worker` it assigns is cleared
then. `Clients.connected_of_run` is about the runs in which that does not happen, and
says that it must not: where it does, the next step of the closing thread leaves the
new connection without a worker. `Clients.not_connected` is such a run.

A slot is named by its index, a worker by its id, and what `epoll` watches for a worker
are the slots whose connections are registered with it; closing an `fd` takes it out.
Counters, addresses and timers are left out, and what a request does.
-/

namespace Cik

/-- `MAX_NUM_CLIENTS`. -/
def MAX_NUM_CLIENTS : ℕ := 0x100

/-- `NUM_WORKERS`. -/
def NUM_WORKERS : ℕ := 0x10

/-- What the threads share. -/
structure Clients where
  /-- `clients[i].fd`. -/
  fd : ℕ → ℤ
  /-- `clients[i].worker`. -/
  worker : ℕ → Option ℕ
  /-- The worker whose `epfd` has the client. -/
  registered : ℕ → Option ℕ
  /-- `worker_id`. -/
  worker_id : ℕ

/-- The threads. -/
inductive ServerThread where
  /-- `run_accept_thread`. -/
  | accept
  /-- `run_worker`, of the worker with this id. -/
  | worker (id : ℕ)
  deriving DecidableEq

/-- Where a thread is. -/
inductive ServerLoc where
  /-- At `epoll_wait`. -/
  | idle
  /-- `wait_for_new_connection`: at the test whether the slot is free. -/
  | testFree (i : ℕ)
  /-- At `accept` and the store of what it gives. -/
  | accept (i : ℕ)
  /-- At the test of what it gave. -/
  | testAccepted (i : ℕ)
  /-- At the store to `worker`. -/
  | setWorker (i : ℕ)
  /-- At `client->worker->epfd`. -/
  | loadEpfd (i : ℕ)
  /-- At `epoll_ctl`, for this worker's `epfd`. -/
  | register (i worker : ℕ)
  /-- `process_worker_events`: at an event of the client. -/
  | event (i : ℕ)
  /-- `handle_request`: at the load of `worker`. -/
  | handle (i : ℕ)
  /-- `close_client`: at the test of `fd`. -/
  | testFd (i : ℕ)
  /-- At `close`. -/
  | close (i : ℕ)
  /-- At the store of `-1`. -/
  | storeFd (i : ℕ)
  /-- At the store of `NULL` to `worker`. -/
  | clearWorker (i : ℕ)

/-- What can be seen of a step. -/
inductive ServerEvent where
  /-- Nothing. -/
  | tau
  /-- A new connection is assigned a worker. -/
  | assigned (i worker : ℕ)
  /-- `close_client` is called for the connection. -/
  | closing (i : ℕ)

/-- The steps of the accept thread and the workers. -/
inductive ServerStep : ServerThread → Clients → ServerLoc → ServerEvent → Clients →
    ServerLoc → Prop where
  /-- A connection waits; the slots are searched. -/
  | wait {s : Clients} : ServerStep .accept s .idle .tau s (.testFree 0)
  /-- The slot is taken; there are more. -/
  | taken {s : Clients} {i : ℕ} (h : s.fd i ≠ -1) (hi : i + 1 < MAX_NUM_CLIENTS) :
      ServerStep .accept s (.testFree i) .tau s (.testFree (i + 1))
  /-- All slots are taken. -/
  | full {s : Clients} {i : ℕ} (h : s.fd i ≠ -1) (hi : ¬ i + 1 < MAX_NUM_CLIENTS) :
      ServerStep .accept s (.testFree i) .tau s .idle
  /-- The slot is free. -/
  | free {s : Clients} {i : ℕ} (h : s.fd i = -1) :
      ServerStep .accept s (.testFree i) .tau s (.accept i)
  /-- `accept` gives a descriptor, or `-1` when it fails. -/
  | accept {s : Clients} {i : ℕ} (fd : ℤ) (h : -1 ≤ fd) :
      ServerStep .accept s (.accept i) .tau { s with fd := Function.update s.fd i fd }
        (.testAccepted i)
  /-- It failed. -/
  | failed {s : Clients} {i : ℕ} (h : s.fd i < 0) :
      ServerStep .accept s (.testAccepted i) .tau s .idle
  /-- It did not. -/
  | accepted {s : Clients} {i : ℕ} (h : ¬ s.fd i < 0) :
      ServerStep .accept s (.testAccepted i) .tau s (.setWorker i)
  /-- The worker is assigned. -/
  | setWorker {s : Clients} {i : ℕ} :
      ServerStep .accept s (.setWorker i) (.assigned i s.worker_id)
        { s with worker := Function.update s.worker i (some s.worker_id) } (.loadEpfd i)
  /-- Its `epfd` is read. -/
  | loadEpfd {s : Clients} {i w : ℕ} (h : s.worker i = some w) :
      ServerStep .accept s (.loadEpfd i) .tau s (.register i w)
  /-- The connection is registered, and the next one is for the next worker. -/
  | register {s : Clients} {i w : ℕ} :
      ServerStep .accept s (.register i w) .tau
        { s with
          registered := Function.update s.registered i (some w)
          worker_id := (s.worker_id + 1) % NUM_WORKERS } .idle
  /-- It could not be registered, and is closed. -/
  | notRegistered {s : Clients} {i w : ℕ} :
      ServerStep .accept s (.register i w) (.closing i) s (.testFd i)
  /-- A worker gets an event of a client registered with it. -/
  | event {s : Clients} {i w : ℕ} (h : s.registered i = some w) :
      ServerStep (.worker w) s .idle .tau s (.event i)
  /-- An error, or the request could not be read. -/
  | error {s : Clients} {i w : ℕ} : ServerStep (.worker w) s (.event i) (.closing i) s (.testFd i)
  /-- A request was read. -/
  | request {s : Clients} {i w : ℕ} : ServerStep (.worker w) s (.event i) .tau s (.handle i)
  /-- It is handled and answered. -/
  | handled {s : Clients} {i w v : ℕ} (h : s.worker i = some v) :
      ServerStep (.worker w) s (.handle i) .tau s .idle
  /-- Handling it or answering it fails; without a worker it is `STATUS_BUG`. -/
  | notHandled {s : Clients} {i w : ℕ} :
      ServerStep (.worker w) s (.handle i) (.closing i) s (.testFd i)
  /-- `close_client` of a client that is not connected. -/
  | notOpen {s : Clients} {t : ServerThread} {i : ℕ} (h : s.fd i < 0) :
      ServerStep t s (.testFd i) .tau s .idle
  /-- Of one that is. -/
  | isOpen {s : Clients} {t : ServerThread} {i : ℕ} (h : ¬ s.fd i < 0) :
      ServerStep t s (.testFd i) .tau s (.close i)
  /-- The descriptor is closed. -/
  | close {s : Clients} {t : ServerThread} {i : ℕ} :
      ServerStep t s (.close i) .tau { s with registered := Function.update s.registered i none }
        (.storeFd i)
  /-- The slot is free from now on. -/
  | storeFd {s : Clients} {t : ServerThread} {i : ℕ} :
      ServerStep t s (.storeFd i) .tau { s with fd := Function.update s.fd i (-1) } (.clearWorker i)
  /-- The worker is cleared. -/
  | clearWorker {s : Clients} {t : ServerThread} {i : ℕ} :
      ServerStep t s (.clearWorker i) .tau
        { s with worker := Function.update s.worker i none } .idle

namespace Clients

/-- The slots and the threads after `start_server`. -/
def init : Threads ServerThread Clients ServerLoc where
  shared := ⟨fun _ => -1, fun _ => none, fun _ => none, 0⟩
  loc := fun _ => .idle

/-- The worker that was assigned to the connection of a slot, until it is closed. -/
def assignedTo (l : List (ServerThread × ServerEvent)) (i : ℕ) : Option ℕ :=
  l.foldl (fun w a =>
    match a.2 with
    | .tau => w
    | .assigned j v => if j = i then some v else w
    | .closing j => if j = i then none else w) none

/-- A connected client has its worker. -/
structure Connected (l : List (ServerThread × ServerEvent))
    (c : Threads ServerThread Clients ServerLoc) : Prop where
  /-- The worker of a slot stays the one assigned. -/
  stays : ∀ i w, assignedTo l i = some w → c.shared.worker i = some w
  /-- `wait_for_new_connection` finds a worker. -/
  epfd : ∀ i, c.loc .accept = .loadEpfd i → c.shared.worker i ≠ none
  /-- `handle_request` finds the worker that handles it. -/
  handle : ∀ w i, c.loc (.worker w) = .handle i → c.shared.worker i = some w

/-- When the accept thread assigns a worker, no thread is about to clear it. -/
def NotClosing (c : Threads ServerThread Clients ServerLoc) (a : ServerThread × ServerEvent) :
    Prop :=
  ∀ i w, a.2 = .assigned i w → ∀ t, c.loc t ≠ .clearWorker i

/-! ### What holds -/

/-- Auxiliary: what a slot is used for. -/
inductive Phase where
  /-- For nothing. -/
  | free
  /-- For a connection without a worker yet. -/
  | accepted
  /-- For a connection that is not registered yet. -/
  | assigned (worker : ℕ)
  /-- For a connection that is registered. -/
  | registered (worker : ℕ)
  /-- For a connection that a thread closes. -/
  | closing (t : ServerThread)
  deriving DecidableEq

/-- The worker of a connection. -/
def Phase.worker : Phase → Option ℕ
  | .assigned w => some w
  | .registered w => some w
  | _ => none

/-- What holds of the slots. -/
structure Sound (l : List (ServerThread × ServerEvent)) (g : ℕ → Phase) (s : Clients) : Prop where
  /-- The free slots are those without a descriptor. -/
  free : ∀ i, g i = .free ↔ s.fd i = -1
  /-- The others have one. -/
  fd : ∀ i, g i ≠ .free → 0 ≤ s.fd i
  /-- A connection has the worker it was assigned. -/
  assigned : ∀ i, assignedTo l i = (g i).worker
  /-- It is that of its slot. -/
  worker : ∀ i w, (g i).worker = some w → s.worker i = some w
  /-- A worker gets events of its own connections, or of one that it closes. -/
  registered : ∀ i w, s.registered i = some w → g i = .registered w ∨ g i = .closing (.worker w)

/-- The slot that a thread closes. -/
def closes : ServerLoc → Option ℕ
  | .testFd i => some i
  | .close i => some i
  | .storeFd i => some i
  | _ => none

/-- What a thread knows at each place. -/
def Knows (g : ℕ → Phase) (t : ServerThread) : ServerLoc → Prop
  | .accept i => t = .accept ∧ g i = .free
  | .testAccepted i => t = .accept ∧ (g i = .accepted ∨ g i = .free)
  | .setWorker i => t = .accept ∧ g i = .accepted
  | .loadEpfd i => t = .accept ∧ ∃ w, g i = .assigned w
  | .register i w => t = .accept ∧ g i = .assigned w
  | .event i => ∃ w, t = .worker w ∧ g i = .registered w
  | .handle i => ∃ w, t = .worker w ∧ g i = .registered w
  | .clearWorker i => g i = .free ∨ g i = .accepted
  | _ => True

/-- What holds of a thread. -/
structure Stands (g : ℕ → Phase) (t : ServerThread) (s : Clients) (loc : ServerLoc) : Prop where
  /-- What it closes. -/
  closes : ∀ i, g i = .closing t ↔ closes loc = some i
  /-- What it has closed is not registered. -/
  closed : ∀ i, loc = .storeFd i → s.registered i = none
  /-- What it knows. -/
  knows : Knows g t loc

variable {l : List (ServerThread × ServerEvent)} {g : ℕ → Phase} {s s' : Clients}
  {t u : ServerThread} {a : ServerEvent} {loc loc' : ServerLoc} {i w : ℕ} {p : Phase}

theorem assignedTo_snoc_tau : assignedTo (l ++ [(t, .tau)]) i = assignedTo l i := by
  simp [assignedTo, List.foldl_append]

theorem assignedTo_snoc_assigned {j : ℕ} :
    assignedTo (l ++ [(t, .assigned j w)]) i = if j = i then some w else assignedTo l i := by
  simp [assignedTo, List.foldl_append]

theorem assignedTo_snoc_closing {j : ℕ} :
    assignedTo (l ++ [(t, .closing j)]) i = if j = i then none else assignedTo l i := by
  simp [assignedTo, List.foldl_append]

/-- The slot whose use a thread relies on. -/
def relies : ServerLoc → Option ℕ
  | .accept i => some i
  | .testAccepted i => some i
  | .setWorker i => some i
  | .loadEpfd i => some i
  | .register i _ => some i
  | .event i => some i
  | .handle i => some i
  | .clearWorker i => some i
  | _ => none

/-- Only the accept thread relies on a slot that is not registered, except a thread that is about
to clear the worker; and only its worker on one that is. -/
theorem Stands.relies (h : Stands g u s loc) (hr : relies loc = some i) :
    (u = .accept ∧ ∀ w t, g i ≠ .registered w ∧ g i ≠ .closing t) ∨
    (∃ w, u = .worker w ∧ g i = .registered w) ∨
      (loc = .clearWorker i ∧ (g i = .free ∨ g i = .accepted)) := by
  have hk := h.knows
  cases loc <;> simp only [Clients.relies, Option.some.injEq, reduceCtorEq] at hr <;> subst hr
  · exact Or.inl ⟨hk.1, by simp [hk.2]⟩
  · exact Or.inl ⟨hk.1, by rcases hk.2 with he | he <;> simp [he]⟩
  · exact Or.inl ⟨hk.1, by simp [hk.2]⟩
  · obtain ⟨ht, w, he⟩ := hk
    exact Or.inl ⟨ht, by simp [he]⟩
  · exact Or.inl ⟨hk.1, by simp [hk.2]⟩
  · exact Or.inr (Or.inl hk)
  · exact Or.inr (Or.inl hk)
  · exact Or.inr (Or.inr ⟨rfl, hk⟩)

/-- A thread is not disturbed when a slot changes that it does not rely on and does not close. -/
theorem Stands.update (h : Stands g u s loc) (hr : Clients.relies loc ≠ some i)
    (hg : g i ≠ .closing u) (hp : p ≠ .closing u) (hs : ∀ j ≠ i, s'.registered j = s.registered j) :
    Stands (Function.update g i p) u s' loc := by
  refine ⟨fun j => ?_, fun j hj => ?_, ?_⟩
  · by_cases hj : j = i
    · subst hj
      rw [Function.update_self, ← h.closes]
      exact ⟨fun he => absurd he hp, fun he => absurd he hg⟩
    · rw [Function.update_of_ne hj]
      exact h.closes j
  · have hji : j ≠ i := by
      rintro rfl
      exact hg ((h.closes j).mpr (by rw [hj]; rfl))
    rw [hs j hji]
    exact h.closed j hj
  · have hk := h.knows
    cases loc <;> first
      | exact trivial
      | (simp only [Clients.relies, ne_eq, Option.some.injEq] at hr
         simpa only [Knows, Function.update_of_ne hr] using hk)

/-! ### What a step does -/

/-- A step to `s'` and `loc'` keeps what holds. -/
def Kept (l : List (ServerThread × ServerEvent)) (c : Threads ServerThread Clients ServerLoc)
    (t : ServerThread) (s' : Clients) (loc' : ServerLoc) : Prop :=
  ∃ g', Sound l g' s' ∧ Stands g' t s' loc' ∧ ∀ u ≠ t, Stands g' u s' (c.loc u)

variable {c : Threads ServerThread Clients ServerLoc}

theorem Sound.tau (h : Sound l g s) : Sound (l ++ [(t, .tau)]) g s :=
  ⟨h.free, h.fd, fun i => by rw [assignedTo_snoc_tau, h.assigned], h.worker, h.registered⟩

/-- A step that changes nothing but where the thread is. -/
theorem kept_stay (h : Sound l g c.shared) (hA : ∀ u, Stands g u c.shared (c.loc u))
    (hc : closes (c.loc t) = closes loc') (hclosed : ∀ i, loc' ≠ .storeFd i) (hk : Knows g t loc') :
    Kept (l ++ [(t, .tau)]) c t c.shared loc' :=
  ⟨g, h.tau, ⟨fun i => by rw [← hc]; exact (hA t).closes i, fun i hi => absurd hi (hclosed i), hk⟩,
    fun u _ => hA u⟩

/-- One slot changes, and is used for something else from now on. -/
theorem Sound.update {l' : List (ServerThread × ServerEvent)} (h : Sound l g s) (i : ℕ) (p : Phase)
    (hothers : ∀ j ≠ i, s'.fd j = s.fd j ∧ s'.worker j = s.worker j ∧
      s'.registered j = s.registered j ∧ assignedTo l' j = assignedTo l j)
    (hfree : p = .free ↔ s'.fd i = -1) (hfd : p ≠ .free → 0 ≤ s'.fd i)
    (hassigned : assignedTo l' i = p.worker)
    (hworker : ∀ w, p.worker = some w → s'.worker i = some w)
    (hregistered : ∀ w, s'.registered i = some w → p = .registered w ∨ p = .closing (.worker w)) :
    Sound l' (Function.update g i p) s' := by
  refine ⟨fun j => ?_, fun j => ?_, fun j => ?_, fun j => ?_, fun j => ?_⟩ <;> by_cases hj : j = i
  · simpa [hj] using hfree
  · rw [Function.update_of_ne hj, (hothers j hj).1]
    exact h.free j
  · simpa [hj] using hfd
  · rw [Function.update_of_ne hj, (hothers j hj).1]
    exact h.fd j
  · simpa [hj] using hassigned
  · rw [Function.update_of_ne hj, (hothers j hj).2.2.2]
    exact h.assigned j
  · simpa [hj] using hworker
  · rw [Function.update_of_ne hj, (hothers j hj).2.1]
    exact h.worker j
  · simpa [hj] using hregistered
  · rw [Function.update_of_ne hj, (hothers j hj).2.2.1]
    exact h.registered j

/-- The accept thread has got a connection for a free slot, or not. -/
theorem kept_accept {fd : ℤ} (h : Sound l g c.shared) (hA : ∀ u, Stands g u c.shared (c.loc u))
    (hloc : c.loc .accept = .accept i) (hfd : -1 ≤ fd) :
    Kept (l ++ [(.accept, .tau)]) c .accept { c.shared with fd := Function.update c.shared.fd i fd }
      (.testAccepted i) := by
  obtain ⟨hclose, -, hk⟩ := hA .accept
  rw [hloc] at hk hclose
  obtain ⟨-, hfree⟩ := hk
  by_cases hneg : fd = -1
  · have hsame : Function.update c.shared.fd i fd = c.shared.fd := by
      rw [hneg, ← (h.free i).mp hfree, Function.update_eq_self]
    rw [hsame]
    exact ⟨g, h.tau, ⟨hclose, by simp, rfl, Or.inr hfree⟩, fun u _ => hA u⟩
  · refine ⟨Function.update g i .accepted, h.update i .accepted (fun j hj => ?_) ?_ (fun _ => ?_) ?_
      (by simp [Phase.worker]) fun w hr => ?_,
      ⟨fun j => (update_keeps (by simp [hfree]) (by simp) j).trans (hclose j),
      by simp, rfl, Or.inl (by simp)⟩, fun u hu => ?_⟩
    · simp [hj, assignedTo_snoc_tau]
    · simp [hneg]
    · simp only [Function.update_self]
      omega
    · rw [assignedTo_snoc_tau, h.assigned, hfree]
      rfl
    · have hg := h.registered i w hr
      simp [hfree] at hg
    · by_cases hr : relies (c.loc u) = some i
      · rcases (hA u).relies hr with ⟨hacc, -⟩ | ⟨w, -, he⟩ | ⟨hclear, -⟩
        · exact absurd hacc hu
        · rw [hfree] at he
          cases he
        · obtain ⟨hcloses, -, -⟩ := hA u
          rw [hclear] at hcloses ⊢
          exact ⟨fun j => (update_keeps (by simp [hfree]) (by simp) j).trans (hcloses j),
            by simp, Or.inr (by simp)⟩
      · exact (hA u).update hr (by simp [hfree]) (by simp) fun _ _ => rfl

/-- The worker is assigned, and no thread is about to clear it. -/
theorem kept_setWorker (h : Sound l g c.shared) (hA : ∀ u, Stands g u c.shared (c.loc u))
    (hloc : c.loc .accept = .setWorker i) (hclear : ∀ u, c.loc u ≠ .clearWorker i) :
    Kept (l ++ [(.accept, .assigned i w)]) c .accept
      { c.shared with worker := Function.update c.shared.worker i (some w) } (.loadEpfd i) := by
  obtain ⟨hclose, -, hk⟩ := hA .accept
  rw [hloc] at hk hclose
  obtain ⟨-, hacc⟩ := hk
  have hne : c.shared.fd i ≠ -1 := fun he => by
    have hfree := (h.free i).mpr he
    rw [hacc] at hfree
    cases hfree
  refine ⟨Function.update g i (.assigned w),
    h.update i (.assigned w) (fun j hj => ?_) (by simpa using hne)
    (fun _ => h.fd i (by simp [hacc])) ?_ (by simp [Phase.worker]) fun v hr => ?_,
    ⟨fun j => (update_keeps (by simp [hacc]) (by simp) j).trans (hclose j),
      by simp, rfl, w, by simp⟩, fun u hu => ?_⟩
  · simp [hj, assignedTo_snoc_assigned, Ne.symm hj]
  · simp [assignedTo_snoc_assigned, Phase.worker]
  · have hg := h.registered i v hr
    simp [hacc] at hg
  · refine (hA u).update (fun hr => ?_) (by simp [hacc]) (by simp) fun _ _ => rfl
    rcases (hA u).relies hr with ⟨hua, -⟩ | ⟨v, -, he⟩ | ⟨hcl, -⟩
    · exact hu hua
    · rw [hacc] at he
      cases he
    · exact hclear u hcl

/-- The connection is registered. -/
theorem kept_register (h : Sound l g c.shared) (hA : ∀ u, Stands g u c.shared (c.loc u))
    (hloc : c.loc .accept = .register i w) {worker_id : ℕ} :
    Kept (l ++ [(.accept, .tau)]) c .accept
      { c.shared with
        registered := Function.update c.shared.registered i (some w)
        worker_id := worker_id } .idle := by
  obtain ⟨hclose, -, hk⟩ := hA .accept
  rw [hloc] at hk hclose
  obtain ⟨-, hass⟩ := hk
  have hne : c.shared.fd i ≠ -1 := fun he => by
    have hfree := (h.free i).mpr he
    rw [hass] at hfree
    cases hfree
  refine ⟨Function.update g i (.registered w),
    h.update i (.registered w) (fun j hj => ?_) (by simpa using hne)
    (fun _ => h.fd i (by simp [hass])) ?_
    (fun v hv => h.worker i v (by rw [hass]; exact hv)) (by simp),
    ⟨fun j => (update_keeps (by simp [hass]) (by simp) j).trans (hclose j), by simp, trivial⟩,
    fun u hu => ?_⟩
  · simp [hj, assignedTo_snoc_tau]
  · rw [assignedTo_snoc_tau, h.assigned, hass]
    rfl
  · refine (hA u).update (fun hr => ?_) (by simp [hass]) (by simp) fun j hj =>
      Function.update_of_ne hj _ _
    rcases (hA u).relies hr with ⟨hua, -⟩ | ⟨v, -, he⟩ | ⟨-, he⟩
    · exact hu hua
    · rw [hass] at he
      cases he
    · simp [hass] at he

/-- `close_client` is called, by the accept thread or the connection's worker. -/
theorem kept_closing (h : Sound l g c.shared) (hA : ∀ u, Stands g u c.shared (c.loc u))
    (hcl : closes (c.loc t) = none)
    (hg : (t = .accept ∧ ∃ w, g i = .assigned w) ∨ ∃ w, t = .worker w ∧ g i = .registered w) :
    Kept (l ++ [(t, .closing i)]) c t c.shared (.testFd i) := by
  have hclose := (hA t).closes
  rw [hcl] at hclose
  have hnotFree : g i ≠ .free := by
    rcases hg with ⟨-, w, he⟩ | ⟨w, -, he⟩ <;> simp [he]
  have hnotClosing : ∀ u, g i ≠ .closing u := by
    rcases hg with ⟨-, w, he⟩ | ⟨w, -, he⟩ <;> simp [he]
  refine ⟨Function.update g i (.closing t),
    h.update i (.closing t) (fun j hj => ?_) ?_ (fun _ => h.fd i hnotFree) ?_
    (by simp [Phase.worker]) fun v hr => ?_, ⟨update_gains hclose, by simp, trivial⟩,
    fun u hu => ?_⟩
  · simp [assignedTo_snoc_closing, Ne.symm hj]
  · simpa using fun he => hnotFree ((h.free i).mpr he)
  · simp [assignedTo_snoc_closing, Phase.worker]
  · rcases h.registered i v hr with he | he
    · rcases hg with ⟨-, w, he'⟩ | ⟨w, rfl, he'⟩
      · rw [he'] at he
        cases he
      · rw [he'] at he
        cases he
        exact Or.inr rfl
    · exact absurd he (hnotClosing _)
  · refine (hA u).update (fun hr => ?_) (hnotClosing u) (by simpa using Ne.symm hu) fun _ _ => rfl
    rcases (hA u).relies hr with ⟨hua, he⟩ | ⟨v, hv, he⟩ | ⟨-, he⟩
    · rcases hg with ⟨hta, -⟩ | ⟨w, -, he'⟩
      · exact hu (hua.trans hta.symm)
      · exact (he w t).1 he'
    · rcases hg with ⟨-, w, he'⟩ | ⟨w, ht, he'⟩
      · rw [he'] at he
        cases he
      · rw [he'] at he
        cases he
        exact hu (hv.trans ht.symm)
    · rcases hg with ⟨-, w, he'⟩ | ⟨w, -, he'⟩ <;> simp [he'] at he

/-- The descriptor is closed; the slot is not free yet. -/
theorem kept_close (h : Sound l g c.shared) (hA : ∀ u, Stands g u c.shared (c.loc u))
    (hloc : c.loc t = .close i) :
    Kept (l ++ [(t, .tau)]) c t
      { c.shared with registered := Function.update c.shared.registered i none }
      (.storeFd i) := by
  have hclose := (hA t).closes
  rw [hloc] at hclose
  refine ⟨g, ⟨h.free, h.fd, fun j => ?_, h.worker, fun j w hr => ?_⟩, ⟨hclose, by simp, trivial⟩,
    fun u _ => ⟨(hA u).closes, fun j hj => ?_, (hA u).knows⟩⟩
  · rw [assignedTo_snoc_tau, h.assigned]
  · by_cases hj : j = i
    · simp [hj] at hr
    · exact h.registered j w (by simpa [hj] using hr)
  · by_cases hji : j = i
    · simp [hji]
    · simpa [hji] using (hA u).closed j hj

/-- The slot is free. -/
theorem kept_storeFd (h : Sound l g c.shared) (hA : ∀ u, Stands g u c.shared (c.loc u))
    (hloc : c.loc t = .storeFd i) :
    Kept (l ++ [(t, .tau)]) c t { c.shared with fd := Function.update c.shared.fd i (-1) }
      (.clearWorker i) := by
  have hclose := (hA t).closes
  rw [hloc] at hclose
  have hg : g i = .closing t := (hclose i).mpr rfl
  refine ⟨Function.update g i .free, h.update i .free (fun j hj => ?_) (by simp) (by simp) ?_
    (by simp [Phase.worker]) (fun w hr => ?_),
    ⟨update_loses hclose (by simp), by simp, Or.inl (by simp)⟩, fun u hu => ?_⟩
  · simp [hj, assignedTo_snoc_tau]
  · rw [assignedTo_snoc_tau, h.assigned, hg]
    rfl
  · have hnone := (hA t).closed i hloc
    simp only [hnone, reduceCtorEq] at hr
  · refine (hA u).update (fun hr => ?_) (by simpa [hg] using Ne.symm hu) (by simp) fun _ _ => rfl
    rcases (hA u).relies hr with ⟨-, he⟩ | ⟨v, -, he⟩ | ⟨-, he⟩
    · exact (he 0 t).2 hg
    · rw [hg] at he
      cases he
    · simp [hg] at he

/-- The worker of a free slot is cleared. -/
theorem kept_clearWorker (h : Sound l g c.shared) (hA : ∀ u, Stands g u c.shared (c.loc u))
    (hloc : c.loc t = .clearWorker i) :
    Kept (l ++ [(t, .tau)]) c t
      { c.shared with worker := Function.update c.shared.worker i none } .idle := by
  obtain ⟨hclose, -, hk⟩ := hA t
  rw [hloc] at hclose hk
  refine ⟨g, ⟨h.free, h.fd, fun j => ?_, fun j w hw => ?_, h.registered⟩,
    ⟨hclose, by simp, trivial⟩, fun u _ => ⟨(hA u).closes, (hA u).closed, (hA u).knows⟩⟩
  · rw [assignedTo_snoc_tau, h.assigned]
  · have hji : j ≠ i := by
      rintro rfl
      rcases hk with he | he <;> simp [he, Phase.worker] at hw
    simpa [hji] using h.worker j w hw

/-- Every step keeps what holds, if no thread is about to clear a worker that is assigned. -/
theorem keeps : Threads.KeepsIf NotClosing ServerStep Sound Stands := by
  intro l g c t a s' loc' hC h hA hs
  suffices hkept : Kept (l ++ [(t, a)]) c t s' loc' from hkept
  have hk := (hA t).knows
  generalize hloc : c.loc t = loc at hk hs
  have hstay (q : ServerLoc) (hc : closes loc = closes q) (hq : ∀ i, q ≠ .storeFd i)
    (hk : Knows g t q) :
      Kept (l ++ [(t, .tau)]) c t c.shared q := kept_stay h hA (by rw [hloc]; exact hc) hq hk
  cases hs with
  | wait => exact hstay _ rfl (by simp) trivial
  | taken hfd hi => exact hstay _ rfl (by simp) trivial
  | full hfd hi => exact hstay _ rfl (by simp) trivial
  | free hfd => exact hstay _ rfl (by simp) ⟨rfl, (h.free _).mpr hfd⟩
  | accept fd hfd => exact kept_accept h hA hloc hfd
  | failed hfd => exact hstay _ rfl (by simp) trivial
  | accepted hfd =>
    refine hstay _ rfl (by simp) ⟨rfl, hk.2.resolve_right fun hfree => hfd ?_⟩
    rw [(h.free _).mp hfree]
    decide
  | setWorker => exact kept_setWorker h hA hloc (hC _ _ rfl)
  | @loadEpfd _ i w hw =>
    obtain ⟨-, v, hv⟩ := hk
    have hwv := h.worker i v (by rw [hv]; rfl)
    rw [hw] at hwv
    exact hstay _ rfl (by simp) ⟨rfl, by rw [Option.some.inj hwv, hv]⟩
  | register => exact kept_register h hA hloc
  | notRegistered => exact kept_closing h hA (by rw [hloc]; rfl) (Or.inl ⟨rfl, _, hk.2⟩)
  | @event _ i w hr =>
    refine hstay _ rfl (by simp) ⟨w, rfl, (h.registered i w hr).resolve_right fun hcl => ?_⟩
    have hnone := ((hA (.worker w)).closes i).mp hcl
    rw [hloc] at hnone
    cases hnone
  | error => exact kept_closing h hA (by rw [hloc]; rfl) (Or.inr hk)
  | request => exact hstay _ rfl (by simp) hk
  | handled hw => exact hstay _ rfl (by simp) trivial
  | notHandled => exact kept_closing h hA (by rw [hloc]; rfl) (Or.inr hk)
  | @notOpen _ _ i hfd =>
    -- what a thread closes is open
    have hcl := ((hA t).closes i).mpr (by rw [hloc]; rfl)
    have hpos := h.fd i (by simp [hcl])
    omega
  | isOpen hfd => exact hstay _ rfl (by simp) trivial
  | close => exact kept_close h hA hloc
  | storeFd => exact kept_storeFd h hA hloc
  | clearWorker => exact kept_clearWorker h hA hloc

/-! ### In every reachable state -/

theorem holds_init : Threads.Holds Sound Stands [] init :=
  ⟨fun _ => .free,
    ⟨by simp [init], by simp, by simp [assignedTo, Phase.worker], by simp [Phase.worker],
    by simp [init]⟩, fun t => ⟨by simp [init, closes], by simp [init], trivial⟩⟩

/-- A connected client has its worker, in the runs in which no worker is assigned to a slot while
a thread is about to clear that of the slot's last connection. -/
theorem connected_of_run (h : Run (Provided NotClosing (Threads.Step ServerStep)) init l c) :
    Connected l c := by
  obtain ⟨g, hs, hA⟩ := Threads.provided_invariant keeps h holds_init
  refine ⟨fun i w hw => ?_, fun i hi => ?_, fun w i hi => ?_⟩
  · rw [hs.assigned] at hw
    exact hs.worker i w hw
  · have hk := (hA .accept).knows
    rw [hi] at hk
    obtain ⟨-, w, hw⟩ := hk
    rw [hs.worker i w (by rw [hw]; rfl)]
    simp
  · have hk := (hA (.worker w)).knows
    rw [hi] at hk
    obtain ⟨v, hv, hg⟩ := hk
    obtain rfl : w = v := by simpa using hv
    exact hs.worker i w (by rw [hg]; rfl)

/-- Worker 0 closes its connection, and then the accept thread has a new one in the slot, of which
worker 1 handles a request. -/
theorem connected_of_run_assigned : ∃ l c, (ServerThread.worker 0, ServerEvent.closing 0) ∈ l ∧
    assignedTo l 0 = some 1 ∧ c.shared.worker 0 = some 1 ∧ c.loc (.worker 1) = .handle 0 ∧
    Connected l c := by
  have htau (c : Threads ServerThread Clients ServerLoc) (t : ServerThread) :
      NotClosing c (t, .tau) :=
    fun i w he => by cases he
  have hclosing (c : Threads ServerThread Clients ServerLoc) (t : ServerThread) (i : ℕ) :
      NotClosing c (t, .closing i) :=
    fun j w he => by cases he
  have hleads : Threads.Leads (Provided NotClosing (Threads.Step ServerStep)) (fun l c =>
      (ServerThread.worker 0, ServerEvent.closing 0) ∈ l ∧ assignedTo l 0 = some 1 ∧
        c.shared.worker 0 = some 1 ∧ c.loc (.worker 1) = .handle 0) init := by
    refine .next_provided .accept (htau _ _) rfl .wait ?_
    refine .next_provided .accept (htau _ _) rfl (.free rfl) ?_
    refine .next_provided .accept (htau _ _) rfl (.accept 5 (by decide)) ?_
    refine .next_provided .accept (htau _ _) rfl (.accepted (by decide)) ?_
    refine .next_provided .accept (fun i w _ t => by cases t <;> simp [init]) rfl .setWorker ?_
    refine .next_provided .accept (htau _ _) rfl (.loadEpfd rfl) ?_
    refine .next_provided .accept (htau _ _) rfl .register ?_
    -- worker 0 closes the connection
    refine .next_provided (.worker 0) (htau _ _) rfl (.event (i := 0) rfl) ?_
    refine .next_provided (.worker 0) (hclosing _ _ _) rfl .error ?_
    refine .next_provided (.worker 0) (htau _ _) rfl (.isOpen (by decide)) ?_
    refine .next_provided (.worker 0) (htau _ _) rfl .close ?_
    refine .next_provided (.worker 0) (htau _ _) rfl .storeFd ?_
    refine .next_provided (.worker 0) (htau _ _) rfl .clearWorker ?_
    -- the slot is taken again
    refine .next_provided .accept (htau _ _) rfl .wait ?_
    refine .next_provided .accept (htau _ _) rfl (.free rfl) ?_
    refine .next_provided .accept (htau _ _) rfl (.accept 5 (by decide)) ?_
    refine .next_provided .accept (htau _ _) rfl (.accepted (by decide)) ?_
    refine .next_provided .accept (fun i w _ t => by cases t <;> simp [init]) rfl .setWorker ?_
    refine .next_provided .accept (htau _ _) rfl (.loadEpfd rfl) ?_
    refine .next_provided .accept (htau _ _) rfl .register ?_
    refine .next_provided (.worker 1) (htau _ _) rfl (.event (i := 0) rfl) ?_
    refine .next_provided (.worker 1) (htau _ _) rfl .request ?_
    exact .done ⟨by simp, rfl, rfl, rfl⟩
  obtain ⟨l, c, hrun, hmem, hassigned, hworker, hloc⟩ := hleads
  exact ⟨l, c, hmem, hassigned, hworker, hloc, connected_of_run hrun⟩

/-- Where a worker is assigned while a thread is about to clear it, the thread's next step leaves
the connection without one. -/
theorem not_connected_of_assigned {c' : Threads ServerThread Clients ServerLoc}
    (hloc : c.loc t = .clearWorker i) (hs : Threads.Step ServerStep c (.accept, .assigned i w) c') :
    ∃ c'', Threads.Step ServerStep c' (t, .tau) c'' ∧
      ¬ Connected (l ++ [(.accept, .assigned i w)] ++ [(t, .tau)]) c'' := by
  have ht : t ≠ .accept := by
    rintro rfl
    have hown := hs.own
    simp only [hloc] at hown
    cases hown
  have hloc' : c'.loc t = .clearWorker i := by rw [hs.others t ht, hloc]
  refine ⟨_, Threads.step_at t hloc' .clearWorker, fun hc => ?_⟩
  have hw := hc.stays i w (by rw [assignedTo_snoc_tau, assignedTo_snoc_assigned, if_pos rfl])
  simp at hw

/-- Worker 0 closes its connection, and before it clears the worker of the slot the accept thread
has a new connection there, which it assigns to worker 1. -/
theorem not_connected : ∃ l c, Run (Threads.Step ServerStep) init l c ∧ assignedTo l 0 = some 1 ∧
    c.loc .accept = .loadEpfd 0 ∧ c.shared.worker 0 = none ∧ ¬ Connected l c := by
  have hrun : Run (Threads.Step ServerStep) init
      [(.accept, .tau), (.accept, .tau), (.accept, .tau), (.accept, .tau), (.accept, .assigned 0 0),
        (.accept, .tau), (.accept, .tau), (.worker 0, .tau), (.worker 0, .closing 0),
        (.worker 0, .tau), (.worker 0, .tau), (.worker 0, .tau), (.accept, .tau), (.accept, .tau),
        (.accept, .tau), (.accept, .tau), (.accept, .assigned 0 1), (.worker 0, .tau)] _ :=
    .cons (Threads.step_at _ rfl .wait) <| .cons (Threads.step_at _ rfl (.free rfl)) <|
    .cons (Threads.step_at _ rfl (.accept 5 (by decide))) <|
      .cons (Threads.step_at _ rfl (.accepted (by decide))) <|
    .cons (Threads.step_at _ rfl .setWorker) <| .cons (Threads.step_at _ rfl (.loadEpfd rfl)) <|
    .cons (Threads.step_at _ rfl .register) <|
      .cons (Threads.step_at _ rfl (.event (i := 0) rfl)) <|
    .cons (Threads.step_at _ rfl .error) <| .cons (Threads.step_at _ rfl (.isOpen (by decide))) <|
    .cons (Threads.step_at _ rfl .close) <| .cons (Threads.step_at _ rfl .storeFd) <|
    .cons (Threads.step_at _ rfl .wait) <| .cons (Threads.step_at _ rfl (.free rfl)) <|
    .cons (Threads.step_at _ rfl (.accept 5 (by decide))) <|
      .cons (Threads.step_at _ rfl (.accepted (by decide))) <|
    .cons (Threads.step_at _ rfl .setWorker) <| .cons (Threads.step_at _ rfl .clearWorker) (.nil _)
  refine ⟨_, _, hrun, rfl, rfl, rfl, fun hc => ?_⟩
  exact hc.epfd 0 rfl rfl

end Clients

end Cik

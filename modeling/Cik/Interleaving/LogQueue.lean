import Cik.Library.Threads
import Mathlib.Algebra.Order.Group.Nat

/-!
# The log queue under interleaving

`enqueue_log_entry` and `dequeue_log_entry` of `log.c`, run by one producer (the worker)
and one consumer (who writes the log). The queue is a ring: the producer alone moves
`write` and the consumer alone `read`, and one place is kept free, so that a full ring
is not taken for an empty one. Every load and store of the two is a step, and so is
the copy of each part of an element, in any order.

The elements that were put in, counted from the start, are at their number modulo the
size of the ring as long as they are not taken out. So what `read` and `write` are is
how many were taken out and put in, modulo that size (`LogQueue.Sound`).

Indices are natural numbers here; that the code's have 32 bits makes no difference, as
they are masked after each addition.
-/

namespace Cik

/-- An entry of the log, by its parts. -/
abbrev LogElem (ι β : Type*) := ι → β

/-- `LogQueue`. -/
structure LogQueue (ι β : Type*) where
  /-- The size of the ring, less one. -/
  mask : ℕ
  /-- The place of the next element that is taken out. -/
  read : ℕ
  /-- The place of the next element that is put in. -/
  write : ℕ
  /-- The places. -/
  elems : ℕ → LogElem ι β

/-- The two threads. -/
inductive LogThread where
  /-- It calls `enqueue_log_entry`. -/
  | producer
  /-- It calls `dequeue_log_entry`. -/
  | consumer
  deriving DecidableEq

/-- Where a thread is. -/
inductive LogLoc (ι β : Type*) where
  /-- In neither function. -/
  | idle
  /-- `enqueue_log_entry`: at the load of `write` in the test. -/
  | testWrite (e : LogElem ι β)
  /-- At the load of `read`. -/
  | loadRead (e : LogElem ι β) (write : ℕ)
  /-- At the load of `write` for the element's place. -/
  | putAt (e : LogElem ι β)
  /-- At the copy of the element, of which some parts are done. -/
  | put (e : LogElem ι β) (write : ℕ) (done : List ι)
  /-- At the load of `write`, to be moved on. -/
  | moveWrite (e : LogElem ι β)
  /-- At the store to `write`. -/
  | storeWrite (e : LogElem ι β) (write : ℕ)
  /-- `dequeue_log_entry`: at the load of `read` in the test. -/
  | testRead (e : LogElem ι β)
  /-- At the load of `write`. -/
  | loadWrite (e : LogElem ι β) (read : ℕ)
  /-- At the load of `read` for the element's place. -/
  | takeAt (e : LogElem ι β)
  /-- At the copy of the element, of which some parts are done. -/
  | take (e : LogElem ι β) (read : ℕ) (done : List ι)
  /-- At the load of `read`, to be moved on. -/
  | moveRead (e : LogElem ι β)
  /-- At the store to `read`. -/
  | storeRead (e : LogElem ι β) (read : ℕ)

/-- What can be seen of a step. -/
inductive LogEvent (ι β : Type*) where
  /-- Nothing. -/
  | tau
  /-- `enqueue_log_entry` returns true. -/
  | enqueued (e : LogElem ι β)
  /-- It will return false. -/
  | refused (e : LogElem ι β)
  /-- `dequeue_log_entry` returns true. -/
  | dequeued (e : LogElem ι β)
  /-- It will return false. -/
  | empty

variable {ι β : Type*}

/-- The steps of `enqueue_log_entry` and `dequeue_log_entry`. -/
inductive LogStep [DecidableEq ι] : LogThread → LogQueue ι β → LogLoc ι β → LogEvent ι β →
    LogQueue ι β → LogLoc ι β → Prop where
  /-- `enqueue_log_entry` is called. -/
  | enqueue {q : LogQueue ι β} (e : LogElem ι β) : LogStep .producer q .idle .tau q (.testWrite e)
  /-- `write` is loaded. -/
  | testWrite {q : LogQueue ι β} {e : LogElem ι β} :
      LogStep .producer q (.testWrite e) .tau q (.loadRead e q.write)
  /-- The ring is full. -/
  | full {q : LogQueue ι β} {e : LogElem ι β} {write : ℕ} (h : (write + 1) &&& q.mask = q.read) :
      LogStep .producer q (.loadRead e write) (.refused e) q .idle
  /-- It is not. -/
  | notFull {q : LogQueue ι β} {e : LogElem ι β} {write : ℕ} (h : (write + 1) &&& q.mask ≠ q.read) :
      LogStep .producer q (.loadRead e write) .tau q (.putAt e)
  /-- `write` is loaded. -/
  | putAt {q : LogQueue ι β} {e : LogElem ι β} :
      LogStep .producer q (.putAt e) .tau q (.put e q.write [])
  /-- A part is copied. -/
  | put {q : LogQueue ι β} {e : LogElem ι β} {write : ℕ} {done : List ι} (i : ι) (h : i ∉ done) :
      LogStep .producer q (.put e write done) .tau
        { q with elems := Function.update q.elems write (Function.update (q.elems write) i (e i)) }
        (.put e write (i :: done))
  /-- All parts are. -/
  | putAll {q : LogQueue ι β} {e : LogElem ι β} {write : ℕ} {done : List ι} (h : ∀ i, i ∈ done) :
      LogStep .producer q (.put e write done) .tau q (.moveWrite e)
  /-- `write` is loaded. -/
  | moveWrite {q : LogQueue ι β} {e : LogElem ι β} :
      LogStep .producer q (.moveWrite e) .tau q (.storeWrite e ((q.write + 1) &&& q.mask))
  /-- It is moved on. -/
  | storeWrite {q : LogQueue ι β} {e : LogElem ι β} {write : ℕ} :
      LogStep .producer q (.storeWrite e write) (.enqueued e) { q with write := write } .idle
  /-- `dequeue_log_entry` is called; the element is to be copied over `e`. -/
  | dequeue {q : LogQueue ι β} (e : LogElem ι β) : LogStep .consumer q .idle .tau q (.testRead e)
  /-- `read` is loaded. -/
  | testRead {q : LogQueue ι β} {e : LogElem ι β} :
      LogStep .consumer q (.testRead e) .tau q (.loadWrite e q.read)
  /-- The ring is empty. -/
  | empty {q : LogQueue ι β} {e : LogElem ι β} {read : ℕ} (h : read = q.write) :
      LogStep .consumer q (.loadWrite e read) .empty q .idle
  /-- It is not. -/
  | notEmpty {q : LogQueue ι β} {e : LogElem ι β} {read : ℕ} (h : read ≠ q.write) :
      LogStep .consumer q (.loadWrite e read) .tau q (.takeAt e)
  /-- `read` is loaded. -/
  | takeAt {q : LogQueue ι β} {e : LogElem ι β} :
      LogStep .consumer q (.takeAt e) .tau q (.take e q.read [])
  /-- A part is copied. -/
  | take {q : LogQueue ι β} {e : LogElem ι β} {read : ℕ} {done : List ι} (i : ι) (h : i ∉ done) :
      LogStep .consumer q (.take e read done) .tau q
        (.take (Function.update e i (q.elems read i)) read (i :: done))
  /-- All parts are. -/
  | takeAll {q : LogQueue ι β} {e : LogElem ι β} {read : ℕ} {done : List ι} (h : ∀ i, i ∈ done) :
      LogStep .consumer q (.take e read done) .tau q (.moveRead e)
  /-- `read` is loaded. -/
  | moveRead {q : LogQueue ι β} {e : LogElem ι β} :
      LogStep .consumer q (.moveRead e) .tau q (.storeRead e ((q.read + 1) &&& q.mask))
  /-- It is moved on. -/
  | storeRead {q : LogQueue ι β} {e : LogElem ι β} {read : ℕ} :
      LogStep .consumer q (.storeRead e read) (.dequeued e) { q with read := read } .idle

/-- `LOG_QUEUE_INIT`, with a ring of `2 ^ n` places; nothing is known of what they hold. -/
def LogQueue.init (n : ℕ) (elems : ℕ → LogElem ι β) :
    Threads LogThread (LogQueue ι β) (LogLoc ι β) where
  shared := { mask := 2 ^ n - 1, read := 0, write := 0, elems := elems }
  loc := fun _ => .idle

/-- The entries that were put in. -/
def enqueued (l : List (LogThread × LogEvent ι β)) : List (LogElem ι β) :=
  l.filterMap fun a => match a.2 with
    | .enqueued e => some e
    | _ => none

/-- The entries that were taken out. -/
def dequeued (l : List (LogThread × LogEvent ι β)) : List (LogElem ι β) :=
  l.filterMap fun a => match a.2 with
    | .dequeued e => some e
    | _ => none

variable {l l' : List (LogThread × LogEvent ι β)}

theorem enqueued_append : enqueued (l ++ l') = enqueued l ++ enqueued l' := List.filterMap_append

theorem dequeued_append : dequeued (l ++ l') = dequeued l ++ dequeued l' := List.filterMap_append

namespace LogQueue

/-! ### What holds -/

/-- Auxiliary: what was put in, and how many of it were taken out. -/
structure Passed (ι β : Type*) where
  /-- The entries put in. -/
  all : List (LogElem ι β)
  /-- How many were taken out. -/
  taken : ℕ

/-- What holds of the queue. -/
structure Sound (n : ℕ) (l : List (LogThread × LogEvent ι β)) (g : Passed ι β) (q : LogQueue ι β) :
    Prop where
  /-- The ring has `2 ^ n` places. -/
  mask : q.mask = 2 ^ n - 1
  /-- What was put in is what calls returned true for. -/
  all : enqueued l = g.all
  /-- What was taken out are the first of these. -/
  taken : dequeued l = g.all.take g.taken
  /-- No more were taken out. -/
  le : g.taken ≤ g.all.length
  /-- One place at least is free. -/
  lt : g.all.length < g.taken + 2 ^ n
  /-- Where the next one is taken out. -/
  read : q.read = g.taken % 2 ^ n
  /-- Where the next one is put in. -/
  write : q.write = g.all.length % 2 ^ n
  /-- The others are at their places. -/
  elems : ∀ i (h : i < g.all.length), g.taken ≤ i → q.elems (i % 2 ^ n) = g.all[i]

/-- There is a place to put one in. -/
def Room (n : ℕ) (g : Passed ι β) : Prop := g.all.length + 1 < g.taken + 2 ^ n

/-- What a thread knows at each place. -/
def Knows (n : ℕ) (g : Passed ι β) : LogThread → LogQueue ι β → LogLoc ι β → Prop
  | .producer, q, .loadRead _ write => write = q.write
  | .producer, _, .putAt _ => Room n g
  | .producer, q, .put e write done =>
    Room n g ∧ write = q.write ∧ ∀ i ∈ done, q.elems write i = e i
  | .producer, q, .moveWrite e => Room n g ∧ q.elems q.write = e
  | .producer, q, .storeWrite e write =>
    Room n g ∧ q.elems q.write = e ∧ write = (q.write + 1) &&& q.mask
  | .consumer, q, .loadWrite _ read => read = q.read
  | .consumer, _, .takeAt _ => g.taken < g.all.length
  | .consumer, q, .take e read done =>
    g.taken < g.all.length ∧ read = q.read ∧ ∀ i ∈ done, e i = q.elems read i
  | .consumer, q, .moveRead e => g.taken < g.all.length ∧ e = q.elems q.read
  | .consumer, q, .storeRead e read =>
    g.taken < g.all.length ∧ e = q.elems q.read ∧ read = (q.read + 1) &&& q.mask
  | _, _, _ => True

variable {n : ℕ} {l : List (LogThread × LogEvent ι β)} {g : Passed ι β} {q q' : LogQueue ι β}
  {t u : LogThread} {a : LogEvent ι β} {loc loc' : LogLoc ι β} {e : LogElem ι β}

theorem mod_ne {a b : ℕ} (h : a < b) (hb : b < a + 2 ^ n) : a % 2 ^ n ≠ b % 2 ^ n := by
  intro he
  have hdvd : 2 ^ n ∣ b - a := Nat.dvd_of_mod_eq_zero (Nat.sub_mod_eq_zero_of_mod_eq he.symm)
  have hle := Nat.le_of_dvd (by omega) hdvd
  omega

theorem Sound.masked (h : Sound n l g q) (i : ℕ) : i &&& q.mask = i % 2 ^ n := by
  rw [h.mask, Nat.and_two_pow_sub_one_eq_mod]

/-- The place after `write`. -/
theorem Sound.next_write (h : Sound n l g q) :
    (q.write + 1) &&& q.mask = (g.all.length + 1) % 2 ^ n := by
  rw [h.masked, h.write, Nat.mod_add_mod]

/-- The place after `read`. -/
theorem Sound.next_read (h : Sound n l g q) : (q.read + 1) &&& q.mask = (g.taken + 1) % 2 ^ n := by
  rw [h.masked, h.read, Nat.mod_add_mod]

/-- The test for a full ring is right: the place after `write` is `read` just when all but one
of the places are taken. -/
theorem Sound.full_iff (h : Sound n l g q) :
    (q.write + 1) &&& q.mask = q.read ↔ g.all.length + 1 = g.taken + 2 ^ n := by
  rw [h.next_write, h.read]
  have hle := h.le
  have hlt := h.lt
  constructor
  · intro he
    by_contra hne
    exact mod_ne (Nat.lt_succ_of_le hle) (by omega) he.symm
  · intro he
    rw [he, Nat.add_mod_right]

/-- So is the test for an empty ring. -/
theorem Sound.empty_iff (h : Sound n l g q) : q.read = q.write ↔ g.taken = g.all.length := by
  rw [h.read, h.write]
  have hle := h.le
  have hlt := h.lt
  constructor
  · intro he
    by_contra hne
    exact mod_ne (by omega) hlt he
  · intro he
    rw [he]

/-- The element at `read` is the next one to be taken out. -/
theorem Sound.elems_read (h : Sound n l g q) (hlt : g.taken < g.all.length) :
    q.elems q.read = g.all[g.taken] := by
  rw [h.read]
  exact h.elems _ hlt (Nat.le_refl _)

/-- What is seen of a step, other than a return, changes nothing about what passed. -/
theorem Sound.snoc (h : Sound n l g q) (he : enqueued [(t, a)] = []) (hd : dequeued [(t, a)] = []) :
    Sound n (l ++ [(t, a)]) g q where
  mask := h.mask
  all := by
    rw [enqueued_append, he, List.append_nil, h.all]
  taken := by
    rw [dequeued_append, hd, List.append_nil, h.taken]
  le := h.le
  lt := h.lt
  read := h.read
  write := h.write
  elems := h.elems

/-! ### What a step does -/

/-- A step of `t` to `q'` and `loc'` keeps what holds. -/
def Kept (n : ℕ) (l : List (LogThread × LogEvent ι β)) (g : Passed ι β) (q : LogQueue ι β)
    (t : LogThread) (q' : LogQueue ι β) (loc' : LogLoc ι β) : Prop :=
  ∃ g', Sound n l g' q' ∧ Knows n g' t q' loc' ∧ ∀ u ≠ t, ∀ loc, Knows n g u q loc →
    Knows n g' u q' loc

/-- A step that changes nothing but where the thread is. -/
theorem kept_stay (h : Sound n l g q) (hk : Knows n g t q loc') (he : enqueued [(t, a)] = [])
    (hd : dequeued [(t, a)] = []) : Kept n (l ++ [(t, a)]) g q t q loc' :=
  ⟨g, h.snoc he hd, hk, fun _ _ _ hq => hq⟩

/-- The producer writes at a place that is free, and the consumer reads at another. -/
theorem kept_put [DecidableEq ι] {write : ℕ} {done : List ι} (i : ι) (h : Sound n l g q)
    (hk : Knows n g .producer q (.put e write done)) :
    Kept n l g q .producer
      { q with elems := Function.update q.elems write (Function.update (q.elems write) i (e i)) }
      (.put e write (i :: done)) := by
  obtain ⟨hroom, rfl, hdone⟩ := hk
  have hle := h.le
  have hother {j : ℕ} (hj : g.taken ≤ j) (hjl : j < g.all.length) : j % 2 ^ n ≠ q.write := by
    rw [h.write]
    exact mod_ne hjl (by rw [Room] at hroom; omega)
  refine ⟨g, ⟨h.mask, h.all, h.taken, h.le, h.lt, h.read, h.write, fun j hj hjt => ?_⟩,
    ⟨hroom, rfl, fun j hj => ?_⟩, fun u hu loc hq => ?_⟩
  · simpa [hother hjt hj] using h.elems j hj hjt
  · simp only [Function.update_self]
    rcases List.mem_cons.mp hj with rfl | hj
    · simp
    · by_cases hji : j = i
      · simp [hji]
      · simp [hji, hdone j hj]
  · have hread (hlt : g.taken < g.all.length) : q.read ≠ q.write :=
      h.read ▸ hother (Nat.le_refl _) hlt
    cases u with
    | producer => exact absurd rfl hu
    | consumer =>
      cases loc with
      | take e' read done' =>
        obtain ⟨hlt, rfl, hdone'⟩ := hq
        refine ⟨hlt, rfl, fun j hj => ?_⟩
        simp [hread hlt, hdone' j hj]
      | moveRead e' =>
        obtain ⟨hlt, rfl⟩ := hq
        exact ⟨hlt, by simp [hread hlt]⟩
      | storeRead e' read =>
        obtain ⟨hlt, rfl, rfl⟩ := hq
        exact ⟨hlt, by simp [hread hlt], rfl⟩
      | _ => exact hq

/-- One more is put in. -/
theorem kept_storeWrite {write : ℕ} (h : Sound n l g q)
    (hk : Knows n g .producer q (.storeWrite e write)) :
    Kept n (l ++ [(.producer, .enqueued e)]) g q .producer { q with write := write } .idle := by
  obtain ⟨hroom, hput, rfl⟩ := hk
  have hle := h.le
  have hlength : (g.all ++ [e]).length = g.all.length + 1 := by simp
  refine ⟨⟨g.all ++ [e], g.taken⟩, ⟨h.mask, ?_, ?_, ?_, ?_, h.read, ?_, fun i hi hit => ?_⟩,
    trivial, fun u hu loc hq => ?_⟩
  · rw [enqueued_append]
    exact congrArg (· ++ [e]) h.all
  · rw [dequeued_append, List.take_append_of_le_length hle]
    exact (List.append_nil _).trans h.taken
  · simp only [hlength]
    omega
  · simp only [hlength]
    exact hroom
  · simp only [hlength]
    exact h.next_write
  · by_cases hil : i < g.all.length
    · simpa [List.getElem_append_left hil] using h.elems i hil hit
    · have hi : i = g.all.length := by simp only [hlength] at hi; omega
      subst hi
      simpa [← h.write] using hput
  · cases u with
    | producer => exact absurd rfl hu
    | consumer =>
      have hmono (hlt : g.taken < g.all.length) : g.taken < (g.all ++ [e]).length := by
        rw [hlength]
        exact Nat.lt_succ_of_lt hlt
      cases loc with
      | takeAt e' => exact hmono hq
      | take e' read done' => exact ⟨hmono hq.1, hq.2⟩
      | moveRead e' => exact ⟨hmono hq.1, hq.2⟩
      | storeRead e' read => exact ⟨hmono hq.1, hq.2⟩
      | _ => exact hq

/-- One more is taken out. -/
theorem kept_storeRead {read : ℕ} (h : Sound n l g q)
    (hk : Knows n g .consumer q (.storeRead e read)) :
    Kept n (l ++ [(.consumer, .dequeued e)]) g q .consumer { q with read := read } .idle := by
  obtain ⟨hlt, rfl, rfl⟩ := hk
  have hltn := h.lt
  refine ⟨⟨g.all, g.taken + 1⟩, ⟨h.mask, ?_, ?_, hlt, ?_, h.next_read, h.write, fun i hi hit => ?_⟩,
    trivial, fun u hu loc hq => ?_⟩
  · rw [enqueued_append]
    exact (List.append_nil _).trans h.all
  · rw [dequeued_append]
    change dequeued l ++ [q.elems q.read] = _
    rw [h.taken, h.elems_read hlt, List.take_append_getElem hlt]
  · simp only
    omega
  · exact h.elems i hi (by simp only at hit; omega)
  · cases u with
    | consumer => exact absurd rfl hu
    | producer =>
      have hmono (hroom : Room n g) : Room n ⟨g.all, g.taken + 1⟩ := by
        rw [Room] at hroom ⊢
        simp only
        omega
      cases loc with
      | putAt e' => exact hmono hq
      | put e' write done => exact ⟨hmono hq.1, hq.2⟩
      | moveWrite e' => exact ⟨hmono hq.1, hq.2⟩
      | storeWrite e' write => exact ⟨hmono hq.1, hq.2⟩
      | _ => exact hq

/-- Every step keeps what holds. -/
theorem keeps [DecidableEq ι] (n : ℕ) :
    Threads.Keeps (LogStep (ι := ι) (β := β)) (Sound n) (Knows n) := by
  intro l g t q loc a q' loc' h hk hs
  suffices hkept : Kept n (l ++ [(t, a)]) g q t q' loc' from hkept
  cases hs with
  | enqueue e => exact kept_stay h trivial rfl rfl
  | testWrite => exact kept_stay h rfl rfl rfl
  | full hf => exact kept_stay h trivial rfl rfl
  | notFull hf =>
    refine kept_stay h ?_ rfl rfl
    obtain rfl := hk
    have hne : ¬ g.all.length + 1 = g.taken + 2 ^ n := fun he => hf (h.full_iff.mpr he)
    have hlt := h.lt
    change g.all.length + 1 < g.taken + 2 ^ n
    omega
  | putAt => exact kept_stay h ⟨hk, rfl, by simp⟩ rfl rfl
  | put i hi =>
    obtain ⟨g', h', hk', hu⟩ := kept_put i h hk
    exact ⟨g', h'.snoc rfl rfl, hk', hu⟩
  | putAll hall =>
    obtain ⟨hroom, rfl, hdone⟩ := hk
    exact kept_stay h ⟨hroom, funext fun i => hdone i (hall i)⟩ rfl rfl
  | moveWrite => exact kept_stay h ⟨hk.1, hk.2, rfl⟩ rfl rfl
  | storeWrite => exact kept_storeWrite h hk
  | dequeue e => exact kept_stay h trivial rfl rfl
  | testRead => exact kept_stay h rfl rfl rfl
  | empty he => exact kept_stay h trivial rfl rfl
  | notEmpty hne =>
    refine kept_stay h ?_ rfl rfl
    obtain rfl := hk
    exact Nat.lt_of_le_of_ne h.le fun he => hne (h.empty_iff.mpr he)
  | takeAt => exact kept_stay h ⟨hk, rfl, by simp⟩ rfl rfl
  | take i hi =>
    obtain ⟨hlt, rfl, hdone⟩ := hk
    refine kept_stay h ⟨hlt, rfl, fun j hj => ?_⟩ rfl rfl
    rcases List.mem_cons.mp hj with rfl | hj
    · simp
    · by_cases hji : j = i
      · simp [hji]
      · simp [hji, hdone j hj]
  | takeAll hall =>
    obtain ⟨hlt, rfl, hdone⟩ := hk
    exact kept_stay h ⟨hlt, funext fun i => hdone i (hall i)⟩ rfl rfl
  | moveRead => exact kept_stay h ⟨hk.1, hk.2, rfl⟩ rfl rfl
  | storeRead => exact kept_storeRead h hk

/-! ### In every reachable state -/

/-- The queue hands on what was put in, in order and whole. -/
structure Exact [DecidableEq ι] (n : ℕ) (l : List (LogThread × LogEvent ι β))
    (c : Threads LogThread (LogQueue ι β) (LogLoc ι β)) : Prop where
  /-- What was taken out are the first of those that were put in. -/
  isPrefix : dequeued l <+: enqueued l
  /-- The others are in the ring, at their places. -/
  kept : ∀ i (h : i < (enqueued l).length), (dequeued l).length ≤ i →
    c.shared.elems (i % 2 ^ n) = (enqueued l)[i]
  /-- The two indices are places of the ring. -/
  places : c.shared.read < 2 ^ n ∧ c.shared.write < 2 ^ n
  /-- So are those of the elements that are copied. -/
  copies : (∀ e write done, c.loc .producer = .put e write done → write < 2 ^ n) ∧
    ∀ e read done, c.loc .consumer = .take e read done → read < 2 ^ n
  /-- None is copied out while it is copied in. -/
  whole : ∀ e write done e' read done', c.loc .producer = .put e write done →
    c.loc .consumer = .take e' read done' → write ≠ read
  /-- One is refused only when all places but one are taken, as `read` is loaded. -/
  refused : ∀ e c', Threads.Step LogStep c (.producer, .refused e) c' →
    (enqueued l).length = (dequeued l).length + c.shared.mask
  /-- None is found only when there is none, as `write` is loaded. -/
  empty : ∀ c', Threads.Step LogStep c (.consumer, .empty) c' → enqueued l = dequeued l

/-- However the calls of the two threads interleave, the queue hands on what was put in. -/
theorem exact_of_run [DecidableEq ι] {elems : ℕ → LogElem ι β}
    {c : Threads LogThread (LogQueue ι β) (LogLoc ι β)}
    (h : Run (Threads.Step LogStep) (init n elems) l c) : Exact n l c := by
  have hpos : 0 < 2 ^ n := Nat.two_pow_pos n
  have hinit : Sound n [] ⟨[], 0⟩ (init n elems : Threads LogThread _ (LogLoc ι β)).shared :=
    ⟨rfl, rfl, rfl, Nat.le_refl _, Nat.lt_add_left _ hpos, by simp [init], by simp [init], by simp⟩
  obtain ⟨g, hs, hk⟩ := Threads.invariant (keeps n) h ⟨_, hinit, fun t => by cases t <;> trivial⟩
  have hlength : (dequeued l).length = g.taken := by
    rw [hs.taken, List.length_take, Nat.min_eq_left hs.le]
  have hread : c.shared.read < 2 ^ n := hs.read ▸ Nat.mod_lt _ hpos
  have hwrite : c.shared.write < 2 ^ n := hs.write ▸ Nat.mod_lt _ hpos
  have hput {e : LogElem ι β} {write : ℕ} {done : List ι}
    (hp : c.loc .producer = .put e write done) :
      Room n g ∧ write = c.shared.write := by
    have hkp := hk .producer
    rw [hp] at hkp
    exact ⟨hkp.1, hkp.2.1⟩
  have htake {e : LogElem ι β} {read : ℕ} {done : List ι}
    (hc : c.loc .consumer = .take e read done) :
      g.taken < g.all.length ∧ read = c.shared.read := by
    have hkc := hk .consumer
    rw [hc] at hkc
    exact ⟨hkc.1, hkc.2.1⟩
  refine ⟨?_, fun i hi hit => ?_, ⟨hread, hwrite⟩,
    ⟨fun e write done hp => ?_, fun e read done hc => ?_⟩, fun e write done e' read done' hp hc =>
    ?_, fun e c' hstep => ?_, fun c' hstep => ?_⟩
  · rw [hs.taken, hs.all]
    exact List.take_prefix _ _
  · rw [hlength] at hit
    simpa only [hs.all] using hs.elems i (hs.all ▸ hi) hit
  · rw [(hput hp).2]
    exact hwrite
  · rw [(htake hc).2]
    exact hread
  · obtain ⟨hroom, rfl⟩ := hput hp
    obtain ⟨hlt, rfl⟩ := htake hc
    rw [hs.write, hs.read]
    rw [Room] at hroom
    exact (mod_ne hlt (by omega)).symm
  · have hkp := hk .producer
    obtain ⟨hown, -⟩ := hstep
    generalize c.loc .producer = loc at hkp hown
    generalize c'.loc .producer = loc' at hown
    generalize c'.shared = q' at hown
    cases hown with
    | full hf =>
      obtain rfl := hkp
      have hfull := hs.full_iff.mp hf
      rw [hs.all, hlength, hs.mask]
      omega
  · have hkc := hk .consumer
    obtain ⟨hown, -⟩ := hstep
    generalize c.loc .consumer = loc at hkc hown
    generalize c'.loc .consumer = loc' at hown
    generalize c'.shared = q' at hown
    cases hown with
    | empty he =>
      obtain rfl := hkc
      rw [hs.all, hs.taken, hs.empty_iff.mp he, List.take_length]

/-- What calls of the two functions have come to. -/
structure Passes (ins outs : List (LogElem ι β)) (q : LogQueue ι β)
    (l : List (LogThread × LogEvent ι β)) (c : Threads LogThread (LogQueue ι β) (LogLoc ι β)) :
        Prop where
  /-- What was put in. -/
  ins : enqueued l = ins
  /-- What was taken out. -/
  outs : dequeued l = outs
  /-- The queue. -/
  shared : c.shared = q
  /-- The calls have returned. -/
  idle : ∀ t, c.loc t = .idle

/-- An entry of two parts that is copied in part by part. -/
theorem update_parts (elems : ℕ → LogElem Bool β) (w : ℕ) (e : LogElem Bool β) :
    let part := Function.update elems w (Function.update (elems w) true (e true))
    Function.update part w (Function.update (part w) false (e false)) =
        Function.update elems w e := by
  dsimp only
  rw [Function.update_idem, Function.update_self]
  congr 1
  funext i
  cases i <;> rfl

section Calls

variable {c : Threads LogThread (LogQueue Bool β) (LogLoc Bool β)} (hidle : ∀ t, c.loc t = .idle)

include hidle

/-- An entry is put in. -/
theorem leads_enqueue (e : LogElem Bool β)
    (hroom : (c.shared.write + 1) &&& c.shared.mask ≠ c.shared.read) :
    Threads.Leads (Threads.Step LogStep) (Passes [e] [] { c.shared with
      elems := Function.update c.shared.elems c.shared.write e
      write := (c.shared.write + 1) &&& c.shared.mask }) c := by
  refine .next .producer (hidle _) (.enqueue e) ?_
  refine .next .producer rfl .testWrite ?_
  refine .next .producer rfl (.notFull hroom) ?_
  refine .next .producer rfl .putAt ?_
  refine .next .producer rfl (.put true (by simp)) ?_
  refine .next .producer rfl (.put false (by simp)) ?_
  refine .next .producer rfl (.putAll (by simp)) ?_
  refine .next .producer rfl .moveWrite ?_
  refine .next .producer rfl .storeWrite ?_
  refine .done ⟨rfl, rfl, ?_, fun t => ?_⟩
  · exact congrArg
      (fun elems =>
        { c.shared with elems := elems, write := (c.shared.write + 1) &&& c.shared.mask })
      (update_parts c.shared.elems c.shared.write e)
  · cases t
    · rfl
    · exact hidle _

/-- An entry is taken out. -/
theorem leads_dequeue (e : LogElem Bool β) (hsome : c.shared.read ≠ c.shared.write) :
    Threads.Leads (Threads.Step LogStep) (Passes [] [c.shared.elems c.shared.read]
      { c.shared with read := (c.shared.read + 1) &&& c.shared.mask }) c := by
  refine .next .consumer (hidle _) (.dequeue e) ?_
  refine .next .consumer rfl .testRead ?_
  refine .next .consumer rfl (.notEmpty hsome) ?_
  refine .next .consumer rfl .takeAt ?_
  refine .next .consumer rfl (.take true (by simp)) ?_
  refine .next .consumer rfl (.take false (by simp)) ?_
  refine .next .consumer rfl (.takeAll (by simp)) ?_
  refine .next .consumer rfl .moveRead ?_
  refine .next .consumer rfl .storeRead ?_
  refine .done ⟨rfl, ?_, rfl, fun t => ?_⟩
  · refine congrArg (fun e => [e]) (funext fun i => ?_)
    cases i <;> rfl
  · cases t
    · exact hidle _
    · rfl

/-- An entry is put in while another is taken out, a part of the one after a part of the other. -/
theorem leads_both (e e' : LogElem Bool β)
    (hroom : (c.shared.write + 1) &&& c.shared.mask ≠ c.shared.read)
    (hsome : c.shared.read ≠ c.shared.write) :
    Threads.Leads (Threads.Step LogStep) (Passes [e] [c.shared.elems c.shared.read] { c.shared with
      elems := Function.update c.shared.elems c.shared.write e
      write := (c.shared.write + 1) &&& c.shared.mask
      read := (c.shared.read + 1) &&& c.shared.mask }) c := by
  refine .next .producer (hidle _) (.enqueue e) ?_
  refine .next .consumer (hidle _) (.dequeue e') ?_
  refine .next .producer rfl .testWrite ?_
  refine .next .consumer rfl .testRead ?_
  refine .next .producer rfl (.notFull hroom) ?_
  refine .next .consumer rfl (.notEmpty hsome) ?_
  refine .next .producer rfl .putAt ?_
  refine .next .consumer rfl .takeAt ?_
  refine .next .producer rfl (.put true (by simp)) ?_
  refine .next .consumer rfl (.take true (by simp)) ?_
  refine .next .producer rfl (.put false (by simp)) ?_
  refine .next .consumer rfl (.take false (by simp)) ?_
  refine .next .consumer rfl (.takeAll (by simp)) ?_
  refine .next .producer rfl (.putAll (by simp)) ?_
  refine .next .producer rfl .moveWrite ?_
  refine .next .consumer rfl .moveRead ?_
  refine .next .producer rfl .storeWrite ?_
  refine .next .consumer rfl .storeRead ?_
  refine .done ⟨rfl, ?_, ?_, fun t => ?_⟩
  · -- the copies are at different places
    refine congrArg (fun e => [e]) (funext fun i => ?_)
    cases i <;> simp [Function.update, hsome]
  · exact congrArg (fun elems => { c.shared with
      elems := elems
      write := (c.shared.write + 1) &&& c.shared.mask
      read := (c.shared.read + 1) &&& c.shared.mask })
        (update_parts c.shared.elems c.shared.write e)
  · cases t <;> rfl

end Calls

/-- An entry of two parts. -/
def numbered (i : ℕ) : LogElem Bool (Bool × ℕ) := fun part => (part, i)

/-- Five entries are put into a ring of four places, which is full once, and four are taken out. -/
theorem exact_of_run_wrapped : ∃ (l : List (LogThread × LogEvent Bool (Bool × ℕ))) (c : _),
    enqueued l = [numbered 0, numbered 1, numbered 2, numbered 3, numbered 4] ∧
      dequeued l = [numbered 0, numbered 1, numbered 2, numbered 3] ∧ c.shared.read = 0 ∧
      c.shared.write = 1 ∧ Exact 2 l c := by
  have hleads : Threads.Leads (Threads.Step LogStep) (fun l c =>
      enqueued l = [numbered 0, numbered 1, numbered 2, numbered 3, numbered 4] ∧
        dequeued l = [numbered 0, numbered 1, numbered 2, numbered 3] ∧ c.shared.read = 0 ∧
        c.shared.write = 1)
      (init 2 fun _ => numbered 9) := by
    refine (leads_enqueue (fun t => rfl) (numbered 0) (by decide)).bind fun l₁ c₁ h₁ => ?_
    have hq₁ := h₁.shared
    refine (leads_enqueue h₁.idle (numbered 1) (by rw [hq₁]; decide)).bind fun l₂ c₂ h₂ => ?_
    have hq₂ := h₂.shared
    rw [hq₁] at hq₂
    -- the first is taken out while the third is put in
    refine (leads_both h₂.idle (numbered 2) (numbered 9) (by rw [hq₂]; decide)
      (by rw [hq₂]; decide)).bind fun l₃ c₃ h₃ => ?_
    have hq₃ := h₃.shared
    rw [hq₂] at hq₃
    -- `write` goes round
    refine (leads_enqueue h₃.idle (numbered 3) (by rw [hq₃]; decide)).bind fun l₄ c₄ h₄ => ?_
    have hq₄ := h₄.shared
    rw [hq₃] at hq₄
    refine (leads_dequeue h₄.idle (numbered 9) (by rw [hq₄]; decide)).bind fun l₅ c₅ h₅ => ?_
    have hq₅ := h₅.shared
    rw [hq₄] at hq₅
    refine (leads_both h₅.idle (numbered 4) (numbered 9) (by rw [hq₅]; decide)
      (by rw [hq₅]; decide)).bind fun l₆ c₆ h₆ => ?_
    have hq₆ := h₆.shared
    rw [hq₅] at hq₆
    -- `read` goes round
    refine (leads_dequeue h₆.idle (numbered 9) (by rw [hq₆]; decide)).bind fun l₇ c₇ h₇ => ?_
    have hq₇ := h₇.shared
    rw [hq₆] at hq₇
    refine .done ⟨?_, ?_, by rw [hq₇]; rfl, by rw [hq₇]; rfl⟩
    · simp only [enqueued_append, h₁.ins, h₂.ins, h₃.ins, h₄.ins, h₅.ins, h₆.ins, h₇.ins]
      rfl
    · simp only [dequeued_append, h₁.outs, h₂.outs, h₃.outs, h₄.outs, h₅.outs, h₆.outs, h₇.outs]
      rw [hq₂, hq₄, hq₅, hq₆]
      rfl
  obtain ⟨l, c, hrun, hins, houts, hread, hwrite⟩ := hleads
  exact ⟨l, c, hins, houts, hread, hwrite, exact_of_run hrun⟩

end LogQueue

end Cik

import UbServer.Queue.Index

/-!
# The queue refines a finite map

`FdMap` says what the queue is for: at most one record for each descriptor. `ClientOp` is an
operation that `handleEpoll` performs on the queue of its thread, with a clock that never goes back;
`ClientOp.onMap` is what it means for the map.

Since no stored time is later than the clock, no shift-up loop turns, and `WellTimed` is an
invariant. `Run.refines` is the refinement over whole runs.
-/

namespace UbServer

open MinHeap Runs QueueConnectionsType

/-- A change of the fields of a record other than `clientFd` and `priorityTime`. -/
abbrev FieldChange := { f : QueueConnectionElementType → QueueConnectionElementType //
  ∀ c, (f c).clientFd = c.clientFd ∧ (f c).priorityTime = c.priorityTime }

/-- A call of a queue function; `change` is the caller writing through the pointer it was given. -/
inductive ClientOp where
  | getOrCreate (fd : ℕ) (now : ℤ) (mem : RequestBlock)
  | change (fd : ℕ) (f : FieldChange)
  | update (fd : ℕ) (now : ℤ) (mem : RequestBlock)
  | dequeueByFd (fd : ℕ)
  | exists (fd : ℕ)

/-- The descriptor the call is about. -/
def ClientOp.fd : ClientOp → ℕ
  | .getOrCreate fd .. | .change fd _ | .update fd .. | .dequeueByFd fd | .exists fd => fd

/-- The queue after the call; `none` is `die` or an access outside the arrays. -/
def ClientOp.apply (q : QueueConnectionsType) : ClientOp → Option QueueConnectionsType
  | .getOrCreate fd now mem => (getConnectionOrCreateByFd q fd now mem).map Prod.fst
  | .change fd f => (q.indexQueue fd).map fun i => q.setConnection i (f.val (q.connections i))
  | .update fd now mem => updateQueueConnection q fd now mem
  | .dequeueByFd fd => some (dequeueConnectionByFd q fd)
  | .exists _ => some q

/-- The queue of a thread, and the last value `time(NULL)` returned. -/
structure TimedQueue where
  clock : ℤ
  queue : QueueConnectionsType

/-- The clock after the call. -/
def ClientOp.clock (clock : ℤ) : ClientOp → ℤ
  | .getOrCreate _ now _ | .update _ now _ => now
  | _ => clock

/-- Client descriptors, a clock that does not go back, and `change` and `update` of present
descriptors only. -/
def ClientOp.Allowed (s : TimedQueue) (op : ClientOp) : Prop :=
  ClientFd op.fd ∧ s.clock ≤ op.clock s.clock ∧
    match op with
    | .change fd _ | .update fd .. => existsConnection s.queue fd
    | _ => True

instance (s : TimedQueue) : DecidablePred (ClientOp.Allowed s) := fun op => by
  cases op <;> unfold ClientOp.Allowed <;> infer_instance

/-- One call. -/
def clientNext (s : TimedQueue) (op : ClientOp) : Option TimedQueue :=
  if op.Allowed s then (op.apply s.queue).map (⟨op.clock s.clock, ·⟩) else none

/-- One call, as a step relation. -/
abbrev ClientStep (s : TimedQueue) (op : ClientOp) (s' : TimedQueue) : Prop :=
  clientNext s op = some s'

/-- A thread starts at any time with the queue of `createQueueConnections`. -/
def TimedQueue.init (clock : ℤ) : TimedQueue := ⟨clock, createQueueConnections⟩

/-! ### The abstract map -/

/-- What the call means for the map. -/
def ClientOp.onMap (m : FdMap) : ClientOp → FdMap
  | .getOrCreate fd now mem =>
    Function.update m fd (some ((m fd).getD (freshConnection fd now mem)))
  | .change fd f => Function.update m fd ((m fd).map f.val)
  | .update fd now mem => Function.update m fd (some (freshConnection fd now mem))
  | .dequeueByFd fd => Function.update m fd none
  | .exists _ => m

/-- The map after the calls of a history. -/
def mapAfter (h : List (Transition TimedQueue ClientOp)) : FdMap :=
  h.foldl (fun m e => e.act.onMap m) fun _ => none

theorem ClientOp.onMap_of_ne (m : FdMap) (op : ClientOp) {fd : ℕ} (h : fd ≠ op.fd) :
    op.onMap m fd = m fd := by
  cases op <;> simp_all [ClientOp.onMap, ClientOp.fd]

/-! ### The invariant -/

/-- The queue is index-consistent, stores client descriptors, and no record is stamped later than
the clock. -/
structure WellTimed (clock : ℤ) (q : QueueConnectionsType) : Prop where
  exact : q.IndexExact
  sized : Sized q
  past : ∀ i < q.currentSize, q.time i ≤ clock

section WellTimed

variable {clock now : ℤ} {q : QueueConnectionsType} {fd : ℕ} {mem : RequestBlock}

theorem wellTimed_create (clock : ℤ) : WellTimed clock createQueueConnections :=
  ⟨indexExact_createQueueConnections, sized_createQueueConnections,
    fun i hi => absurd hi (Nat.not_lt_zero i)⟩

theorem past_iff (he : q.IndexExact) : (∀ i < q.currentSize, q.time i ≤ clock) ↔
    ∀ fd c, getConnectionByFd q fd = some c → c.priorityTime ≤ clock := by
  constructor
  · intro h fd c hc
    obtain ⟨i, hi, rfl, -⟩ := (getConnectionByFd_eq_some he).mp hc
    exact h i hi
  · intro h i hi
    exact h (q.fd i) _ (getConnectionByFd_fd he hi)

theorem WellTimed.mono (h : WellTimed clock q) (hle : clock ≤ now) : WellTimed now q :=
  ⟨h.exact, h.sized, fun i hi => (h.past i hi).trans hle⟩

theorem WellTimed.not_full (h : WellTimed clock q) : q.currentSize < q.capacity :=
  h.sized.not_full h.exact

/-- No shift-up loop turns for a record stamped with the current time. -/
theorem WellTimed.not_shiftUpTurns (h : WellTimed clock q) (hle : clock ≤ now) {index : ℕ}
    (hi : index ≤ q.currentSize) : ¬ ShiftUpTurns q now index := by
  rintro ⟨h0, hlt⟩
  have hp := parentHeap_lt h0
  have := h.past (parentHeap index) (by omega)
  unfold difftime at hlt
  omega

theorem WellTimed.not_updateTurns (h : WellTimed clock q) (hle : clock ≤ now) :
    ¬ UpdateTurns q fd now := by
  rintro ⟨index, hi, -, ht⟩
  exact h.not_shiftUpTurns hle (h.exact.name_pos fd index hi).1.le ht

/-- A queue that changed one binding, to a record no later than the new clock. -/
theorem WellTimed.of_map {q' : QueueConnectionsType} {r : Option QueueConnectionElementType}
    (h : WellTimed clock q) (hle : clock ≤ now) (he : q'.IndexExact) (hs : Sized q')
    (hm : getConnectionByFd q' = Function.update (getConnectionByFd q) fd r)
    (hr : ∀ c, r = some c → c.priorityTime ≤ now) : WellTimed now q' := by
  refine ⟨he, hs, (past_iff he).mpr fun x c hc => ?_⟩
  rw [hm] at hc
  by_cases hx : x = fd
  · subst hx
    exact hr c (by simpa using hc)
  · rw [Function.update_of_ne hx] at hc
    exact ((past_iff h.exact).mp h.past x c hc).trans hle

/-- `getConnectionOrCreateByFd` never dies, and points to the record of the map. -/
theorem WellTimed.getConnectionOrCreateByFd (h : WellTimed clock q) (hle : clock ≤ now)
    (hfd : ClientFd fd) (mem : RequestBlock) :
    ∃ q' index, getConnectionOrCreateByFd q fd now mem = some (q', index) ∧ WellTimed now q' ∧
      q'.indexQueue fd = some index ∧
      q'.connections index = (getConnectionByFd q fd).getD (freshConnection fd now mem) ∧
      getConnectionByFd q' = Function.update (getConnectionByFd q) fd
        (some ((getConnectionByFd q fd).getD (freshConnection fd now mem))) := by
  unfold UbServer.getConnectionOrCreateByFd
  rw [if_pos (show InIndexQueue fd from hfd.2)]
  cases hi : q.indexQueue fd with
  | some index =>
    have hget : getConnectionByFd q fd = some (q.connections index) := by
      unfold getConnectionByFd; rw [hi]; rfl
    refine ⟨q, index, rfl, h.mono hle, hi, by rw [hget]; rfl, ?_⟩
    rw [hget, Option.getD_some, eq_comm, Function.update_eq_self_iff, hget]
  | none =>
    have hget : getConnectionByFd q fd = none := getConnectionByFd_eq_none.mpr hi
    have hne := h.not_full.ne
    have ht : ¬ ShiftUpTurns q (freshConnection fd now mem).priorityTime q.currentSize :=
      h.not_shiftUpTurns hle le_rfl
    have he := (enqueueConnection_indexExact_iff h.exact hne hi).mpr ht
    have hs := enqueueConnection_sized h.sized hne ht hfd
    have hm := enqueueConnection_map h.exact hne ht
    have hidx : (enqueueConnection q (freshConnection fd now mem)).indexQueue fd =
        some q.currentSize := by
      rw [enqueueConnection_of_not_turns hne ht]
      simp [setIndex]
    refine ⟨_, q.currentSize, by dsimp only; rw [hidx]; rfl, ?_, hidx, ?_, ?_⟩
    · exact h.of_map hle he hs hm fun c hc => by
        obtain rfl := Option.some.inj hc; exact le_rfl
    · rw [enqueueConnection_of_not_turns hne ht, hget]
      simp [setIndex, appended, setConnection]
    · rw [hget]; exact hm

end WellTimed

/-- A call is never stuck, keeps the invariant, and does to the map what it means for it. -/
theorem ClientOp.apply_spec {s : TimedQueue} {op : ClientOp} (h : WellTimed s.clock s.queue)
    (hop : op.Allowed s) :
    ∃ q', op.apply s.queue = some q' ∧ WellTimed (op.clock s.clock) q' ∧
      getConnectionByFd q' = op.onMap (getConnectionByFd s.queue) := by
  obtain ⟨hfd, hle, hpresent⟩ := hop
  cases op with
  | getOrCreate fd now mem =>
    obtain ⟨q', index, hq', hw, -, -, hm⟩ := h.getConnectionOrCreateByFd hle hfd mem
    refine ⟨q', ?_, hw, hm⟩
    show (UbServer.getConnectionOrCreateByFd s.queue fd now mem).map Prod.fst = some q'
    rw [show UbServer.getConnectionOrCreateByFd s.queue fd now mem = some (q', index) from hq']
    rfl
  | change fd f =>
    obtain ⟨index, hi⟩ := Option.isSome_iff_exists.mp hpresent
    obtain ⟨hin, hfdi⟩ := h.exact.name_pos fd index hi
    have hf := f.property (s.queue.connections index)
    have hget : getConnectionByFd s.queue fd = some (s.queue.connections index) := by
      unfold getConnectionByFd; rw [hi]; rfl
    refine ⟨s.queue.setConnection index (f.val (s.queue.connections index)),
      by simp only [ClientOp.apply, hi]; rfl, ?_, ?_⟩
    · refine h.of_map hle (setConnection_indexExact h.exact hf.1)
        (setConnection_sized h.sized hf.1) (setConnection_map h.exact hi) fun c hc => ?_
      obtain rfl := Option.some.inj hc
      rw [hf.2]
      exact h.past index hin
    · rw [setConnection_map h.exact hi]
      simp only [ClientOp.onMap, hget, Option.map_some]
  | update fd now mem =>
    obtain ⟨index, hi⟩ := Option.isSome_iff_exists.mp hpresent
    obtain ⟨q', hq', he, hs, hm⟩ := updateQueueConnection_spec mem h.exact h.sized hi
      (h.not_updateTurns hle)
    refine ⟨q', hq', h.of_map hle he hs hm fun c hc => ?_, hm⟩
    obtain rfl := Option.some.inj hc
    exact le_rfl
  | dequeueByFd fd =>
    obtain ⟨he, hs, hm⟩ := dequeueConnectionByFd_spec h.exact h.sized fd
    exact ⟨_, rfl, h.of_map hle he hs hm (fun c hc => by cases hc), hm⟩
  | «exists» fd => exact ⟨_, rfl, h, rfl⟩

theorem clientStep_inv {s s' : TimedQueue} {op : ClientOp} (h : ClientStep s op s') :
    op.Allowed s ∧ op.apply s.queue = some s'.queue ∧ s'.clock = op.clock s.clock := by
  unfold ClientStep clientNext at h
  split at h
  · obtain ⟨q', hq', rfl⟩ := Option.map_eq_some_iff.mp h
    exact ⟨‹_›, hq', rfl⟩
  · cases h

theorem clientStep_spec {s s' : TimedQueue} {op : ClientOp} (h : ClientStep s op s')
    (hw : WellTimed s.clock s.queue) : WellTimed s'.clock s'.queue ∧
      getConnectionByFd s'.queue = op.onMap (getConnectionByFd s.queue) := by
  obtain ⟨hop, happly, hclock⟩ := clientStep_inv h
  obtain ⟨q', hq', hw', hm⟩ := op.apply_spec hw hop
  obtain rfl := Option.some.inj (hq'.symm.trans happly)
  exact ⟨hclock ▸ hw', hm⟩

/-! ### The refinement -/

/-- The queue of `s` represents the map `m`. -/
structure Refines (s : TimedQueue) (m : FdMap) : Prop where
  /-- A lookup answers what the map holds. -/
  lookup : ∀ fd, getConnectionByFd s.queue fd = m fd
  /-- The presence test is the map's. -/
  present : ∀ fd, existsConnection s.queue fd = (m fd).isSome
  /-- Every used slot holds a record of the map, under its own descriptor. -/
  stored : ∀ i < s.queue.currentSize,
    m (s.queue.connections i).clientFd = some (s.queue.connections i)
  /-- The stored descriptors are pairwise distinct. -/
  distinct : ∀ i < s.queue.currentSize, ∀ j < s.queue.currentSize,
    (s.queue.connections i).clientFd = (s.queue.connections j).clientFd → i = j
  not_full : s.queue.currentSize < s.queue.capacity
  /-- `getConnectionOrCreateByFd` does not die, and points to the map's record or a fresh one. -/
  getOrCreate : ∀ fd now mem, ClientFd fd → s.clock ≤ now →
    ∃ q' index, getConnectionOrCreateByFd s.queue fd now mem = some (q', index) ∧
      q'.connections index = (m fd).getD (freshConnection fd now mem)
  /-- Every allowed call returns, represents the map it means, and leaves the records of the other
  descriptors as they are. -/
  step : ∀ op : ClientOp, op.Allowed s → ∃ q', op.apply s.queue = some q' ∧
    getConnectionByFd q' = op.onMap m ∧
    ∀ fd, fd ≠ op.fd → getConnectionByFd q' fd = getConnectionByFd s.queue fd

theorem WellTimed.refines {s : TimedQueue} (h : WellTimed s.clock s.queue) :
    Refines s (getConnectionByFd s.queue) where
  lookup _ := rfl
  present fd := by simp [existsConnection, getConnectionByFd]
  stored i hi := getConnectionByFd_fd h.exact hi
  distinct i hi j hj e := h.exact.inj hi hj e
  not_full := h.not_full
  getOrCreate fd now mem hfd hle := by
    obtain ⟨q', index, hq', -, -, hc, -⟩ := h.getConnectionOrCreateByFd hle hfd mem
    exact ⟨q', index, hq', hc⟩
  step op hop := by
    obtain ⟨q', hq', -, hm⟩ := op.apply_spec h hop
    exact ⟨q', hq', hm, fun fd hfd => by rw [hm]; exact op.onMap_of_ne _ hfd⟩

/-- Along a run the queue stays well-timed and its lookups are those of the map. -/
theorem clientRun_map {clock : ℤ} {h : List (Transition TimedQueue ClientOp)} {s : TimedQueue}
    (hr : Run ClientStep (.init clock) h s) :
    WellTimed s.clock s.queue ∧ getConnectionByFd s.queue = mapAfter h := by
  induction hr with
  | nil => exact ⟨wellTimed_create clock, rfl⟩
  | snoc _ hst ih =>
    obtain ⟨hw, hm⟩ := clientStep_spec hst ih.1
    refine ⟨hw, ?_⟩
    rw [hm, ih.2, mapAfter, mapAfter, List.foldl_append]
    rfl

/-- **Refinement.** After every run of client operations with a clock that does not go back, the
queue represents the map that the operations mean. -/
theorem queue_refines_map {clock : ℤ} {h : List (Transition TimedQueue ClientOp)} {s : TimedQueue}
    (hr : Run ClientStep (.init clock) h s) : Refines s (mapAfter h) := by
  obtain ⟨hw, hm⟩ := clientRun_map hr
  exact hm ▸ hw.refines

/-- Three clients, the first refreshed, the second removed, the third's record changed. -/
def threeClients : List ClientOp :=
  [.getOrCreate 5 100 .zeroed, .getOrCreate 6 100 .zeroed, .getOrCreate 7 101 .zeroed,
    .update 5 102 .zeroed,
    .change 7 ⟨fun c => { c with keepAlive := true }, fun _ => ⟨rfl, rfl⟩⟩, .dequeueByFd 6]

theorem queue_refines_map_threeClients :
    Refines ((exec clientNext (.init 100) threeClients).get (by decide +kernel))
      (mapAfter (history clientNext (.init 100) threeClients)) :=
  queue_refines_map (run_of_isSome (by decide +kernel))

end UbServer

import UbServer.Queue.Index

/-!
# The index array over runs with arbitrary times

`HeapOp` is a call of one of the four functions that move records between slots, with its arguments,
`time(NULL)` and the content of the `malloc`ed block among them. Nothing is asked of the times. Over
such runs the index array stays exact exactly as long as no shift-up loop turns.
-/

namespace UbServer

open MinHeap Runs QueueConnectionsType

/-- A call of a function that moves records. -/
inductive HeapOp where
  | enqueue (connection : QueueConnectionElementType)
  | update (fd : ℕ) (now : ℤ) (mem : RequestBlock)
  | dequeue
  | dequeueByFd (fd : ℕ)

/-- The queue after the call; `none` is an access outside the arrays. -/
def HeapOp.apply (q : QueueConnectionsType) : HeapOp → Option QueueConnectionsType
  | .enqueue connection => some (enqueueConnection q connection)
  | .update fd now mem => updateQueueConnection q fd now mem
  | .dequeue => some (dequeueConnection q)
  | .dequeueByFd fd => some (dequeueConnectionByFd q fd)

/-- The call makes a shift-up loop turn. -/
def HeapOp.ShiftsUp (q : QueueConnectionsType) : HeapOp → Prop
  | .enqueue connection => ShiftUpTurns q connection.priorityTime q.currentSize
  | .update fd now _ => UpdateTurns q fd now
  | _ => False

instance (q : QueueConnectionsType) : DecidablePred (HeapOp.ShiftsUp q) := fun op => by
  cases op <;> unfold HeapOp.ShiftsUp <;> infer_instance

/-- Enqueue a client descriptor that is not present, update one that is, dequeue. -/
def HeapOp.AnyTime (q : QueueConnectionsType) : HeapOp → Prop
  | .enqueue connection => ClientFd connection.clientFd ∧ ¬ existsConnection q connection.clientFd
  | .update fd _ _ => ClientFd fd ∧ existsConnection q fd
  | .dequeue => True
  | .dequeueByFd fd => ClientFd fd

instance (q : QueueConnectionsType) : DecidablePred (HeapOp.AnyTime q) := fun op => by
  cases op <;> unfold HeapOp.AnyTime <;> infer_instance

/-- One call, with whatever `time(NULL)` returns. -/
def anyTimeNext (q : QueueConnectionsType) (op : HeapOp) : Option QueueConnectionsType :=
  if op.AnyTime q then op.apply q else none

/-- One call, as a step relation. -/
abbrev AnyTimeStep (q : QueueConnectionsType) (op : HeapOp) (q' : QueueConnectionsType) : Prop :=
  anyTimeNext q op = some q'

theorem existsConnection_eq_true {q : QueueConnectionsType} {fd : ℕ} :
    existsConnection q fd = true ↔ ∃ index, q.indexQueue fd = some index :=
  Option.isSome_iff_exists

theorem existsConnection_eq_false {q : QueueConnectionsType} {fd : ℕ} :
    ¬ existsConnection q fd = true ↔ q.indexQueue fd = none := by
  rw [existsConnection_eq_true]
  cases q.indexQueue fd <;> simp

theorem anyTimeStep_inv {q q' : QueueConnectionsType} {op : HeapOp} (h : AnyTimeStep q op q') :
    op.AnyTime q ∧ op.apply q = some q' := by
  unfold AnyTimeStep anyTimeNext at h
  split at h
  · exact ⟨‹_›, h⟩
  · cases h

theorem anyTimeStep_sized {q q' : QueueConnectionsType} {op : HeapOp} (h : AnyTimeStep q op q')
    (hs : Sized q) (he : q.IndexExact) (ht : ¬ op.ShiftsUp q) : Sized q' := by
  obtain ⟨hallow, happly⟩ := anyTimeStep_inv h
  cases op with
  | enqueue connection =>
    obtain rfl := Option.some.inj happly
    exact enqueueConnection_sized hs (hs.not_full he).ne ht hallow.1
  | update fd now mem =>
    obtain ⟨index, hi⟩ := existsConnection_eq_true.mp hallow.2
    obtain ⟨q'', hq'', -, hs', -⟩ := updateQueueConnection_spec mem he hs hi ht
    obtain rfl := Option.some.inj (hq''.symm.trans happly)
    exact hs'
  | dequeue =>
    obtain rfl := Option.some.inj happly
    exact (dequeueConnection_spec he hs).2
  | dequeueByFd fd =>
    obtain rfl := Option.some.inj happly
    exact (dequeueConnectionByFd_spec he hs fd).2.1

/-- From an exact index, a call ends in an exact index exactly when it shifts nothing up. -/
theorem anyTimeStep_indexExact_iff {q q' : QueueConnectionsType} {op : HeapOp}
    (h : AnyTimeStep q op q') (hs : Sized q) (he : q.IndexExact) :
    q'.IndexExact ↔ ¬ op.ShiftsUp q := by
  obtain ⟨hallow, happly⟩ := anyTimeStep_inv h
  cases op with
  | enqueue connection =>
    obtain rfl := Option.some.inj happly
    exact enqueueConnection_indexExact_iff he (hs.not_full he).ne
      (existsConnection_eq_false.mp hallow.2)
  | update fd now mem =>
    obtain ⟨index, hi⟩ := existsConnection_eq_true.mp hallow.2
    have hiff := updateQueueConnection_indexExact_iff now mem he hi
    rw [show updateQueueConnection q fd now mem = some q' from happly] at hiff
    show q'.IndexExact ↔ ¬ UpdateTurns q fd now
    simpa using hiff
  | dequeue =>
    obtain rfl := Option.some.inj happly
    exact iff_of_true (dequeueConnection_spec he hs).1 id
  | dequeueByFd fd =>
    obtain rfl := Option.some.inj happly
    exact iff_of_true (dequeueConnectionByFd_spec he hs fd).1 id

/-- **The index array over runs with arbitrary times.** It is exact in every state of a run exactly
when no call of the run makes a shift-up loop turn. -/
theorem anyTime_indexExact_iff {h : List (Transition QueueConnectionsType HeapOp)}
    {q : QueueConnectionsType} (hr : Run AnyTimeStep createQueueConnections h q) :
    Always IndexExact h ↔ Guarded (fun q op => ¬ op.ShiftsUp q) h :=
  hr.forall_post_iff
    ⟨sized_createQueueConnections, indexExact_createQueueConnections⟩
    (fun _ _ _ hst hs he ht => anyTimeStep_sized hst hs he ht)
    (fun _ _ _ hst hs he => anyTimeStep_indexExact_iff hst hs he)

/-- Two clients enqueued in order of time, the first one refreshed, then removed. -/
def refreshedRun : List HeapOp :=
  [.enqueue (freshConnection 5 10 .zeroed), .enqueue (freshConnection 6 11 .zeroed),
    .update 5 12 .zeroed, .dequeueByFd 6, .dequeue]

/-- Over that run the index array is exact. -/
theorem anyTime_indexExact_refreshedRun :
    Always IndexExact (history anyTimeNext createQueueConnections refreshedRun) :=
  (anyTime_indexExact_iff (run_of_isSome (by decide +kernel))).mpr (by decide +kernel)

/-- A client stamped earlier than the one already stored: the stored record moves to slot 1, and the
index array still gives slot 0 for it. -/
theorem enqueue_earlier_loses_index :
    ∃ h q, Run AnyTimeStep createQueueConnections h q ∧
      (q.connections 1).clientFd = 5 ∧ 1 < q.currentSize ∧ q.indexQueue 5 = some 0 ∧
      ¬ q.IndexExact := by
  obtain ⟨h, q, hr, hp⟩ := exists_run_of_any anyTimeNext createQueueConnections
    [.enqueue (freshConnection 5 10 .zeroed), .enqueue (freshConnection 6 3 .zeroed)]
    (p := fun q => (q.connections 1).clientFd = 5 ∧ 1 < q.currentSize ∧ q.indexQueue 5 = some 0)
    (by decide +kernel)
  obtain ⟨h1, h2, h3⟩ := of_decide_eq_true hp
  refine ⟨h, q, hr, h1, h2, h3, fun he => ?_⟩
  have := he.pos_name 1 h2
  rw [show q.fd 1 = 5 from h1, h3] at this
  cases this

end UbServer

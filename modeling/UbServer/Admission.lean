import UbServer.Worker
import UbServer.Queue.Bounds

/-!
# Admission under load

A worker thread in any run: any number of connections open at once, any descriptors the kernel
returns, any clock.

* `Worker.accesses`: the accesses to the arrays of the queue that a step makes.
* `Admits`: they are inside the arrays, and the thread goes on with the connection it takes up.
* `admission_iff`: the steps for which that is so. Nothing keeps a descriptor from being as large as
  the arrays.
-/

namespace UbServer

open Runs QueueConnectionsType

/-! ### The accesses of a step -/

/-- The accesses of a step of the loop of a client, the record behind `connection` first. -/
def EventLoop.accesses (q : QueueConnectionsType) (e : EventLoop) (sys : Sys) : List Access :=
  .connections e.slot ::
    match e.pc with
    | .switch =>
      match (q.connections e.slot).state with
      | .done =>
        if (q.connections e.slot).keepAlive then
          existsAccesses e.clientFd ++
            if existsConnection q e.clientFd then updateAccesses q e.clientFd sys.now sys.mem
            else []
        else []
      | .doneForClose =>
        existsAccesses e.clientFd ++
          if existsConnection q e.clientFd then dequeueByFdAccesses q e.clientFd else []
      | _ => []
    | _ => []

/-- The accesses of a step of a thread. -/
def Worker.accesses (w : Worker) : WorkerAction → List Access
  | .readTime _ =>
    match w.phase with
    | .top => peekAccesses w.queue
    | _ => []
  | .sweep =>
    match w.phase with
    | .sweeping now =>
      peekAccesses w.queue ++
        match w.queue.expired now with
        | some fd =>
          existsAccesses fd ++
            if existsConnection w.queue fd then dequeueByFdAccesses w.queue fd else []
        | none => []
    | _ => []
  | .nextEvent now mem =>
    match w.phase with
    | .processing (.client fd true :: _) => getOrCreateAccesses w.queue fd now mem
    | _ => []
  | .call sys =>
    match w.phase with
    | .handling e _ => e.accesses w.queue sys
    | _ => []
  | _ => []

/-- **Admission** in a step: all accesses are inside the arrays, and a thread that takes up a client
goes on, with the client stored or the queue as it was, and with the entries of the others as they
were. -/
structure Admits (options : Options) (w : Worker) (a : WorkerAction) : Prop where
  inBounds : ∀ access ∈ w.accesses a, access.InBounds
  goesOn : ∀ fd ∈ w.takes a, ∃ w' effects, w.step options a = some (w', effects) ∧
    ((w'.queue.indexQueue fd).isSome ∨ w'.queue = w.queue) ∧
    ∀ other ≠ fd, w'.queue.indexQueue other = w.queue.indexQueue other

/-- A step of a thread, without its effects. -/
def workerNext (options : Options) (w : Worker) (a : WorkerAction) : Option Worker :=
  (w.step options a).map Prod.fst

/-! ### The invariant -/

/-- The queue is bounded, and so are the descriptor and the slot of the loop of a client. -/
structure Worker.Bounded (w : Worker) : Prop where
  queue : UbServer.Bounded w.queue
  loop : ∀ e ∈ w.phase.loop, InIndexQueue e.clientFd ∧ e.slot < maxEpollEvents

section Steps

variable {options : Options} {q q' : QueueConnectionsType} {e e' : EventLoop} {sys : Sys}
  {w w' : Worker} {a : WorkerAction} {effects : List (ℕ × Effect)} {fd : ℕ}

theorem mem_accesses_exists {accesses : List Access} {access : Access}
    (hfd : InIndexQueue fd) (haccesses : ∀ access ∈ accesses, access.InBounds)
    (h : access ∈ existsAccesses fd ++ if existsConnection q fd then accesses else []) :
    access.InBounds := by
  rcases List.mem_append.mp h with h | h
  · exact inBounds_existsAccesses hfd access h
  · split at h
    · exact haccesses access h
    · cases h

theorem EventLoop.step_bounded (h : Bounded q) (hfd : InIndexQueue e.clientFd)
    (hstep : e.step options q sys = some (q', e')) :
    Bounded q' ∧ e'.clientFd = e.clientFd ∧ e'.slot = e.slot := by
  cases EventLoop.step_cases hstep with
  | turned c pc effects hsame hpc hopen hclose heffects =>
    refine ⟨h.setConnection ?_, rfl, rfl⟩
    rw [hsame.1]
    exact h.fd e.slot
  | updated q' hstate hexists hupdate =>
    exact ⟨(updateQueueConnection_bounded h hfd hexists sys.now sys.mem).1 _ hupdate, rfl, rfl⟩
  | dequeued hstate hexists => exact ⟨(dequeueConnectionByFd_bounded h hfd).1, rfl, rfl⟩
  | absent effects habsent heffects => exact ⟨h, rfl, rfl⟩

theorem EventLoop.inBounds_accesses (h : Bounded q) (hfd : InIndexQueue e.clientFd)
    (hslot : e.slot < maxEpollEvents) : ∀ access ∈ e.accesses q sys, access.InBounds := by
  intro access haccess
  unfold EventLoop.accesses at haccess
  rcases List.mem_cons.mp haccess with rfl | haccess
  · exact inBounds_connections.mpr hslot
  split at haccess
  · split at haccess
    · split at haccess
      · by_cases hexists : existsConnection q e.clientFd
        · exact mem_accesses_exists hfd
            (updateQueueConnection_bounded h hfd hexists sys.now sys.mem).2 haccess
        · rw [if_neg hexists, List.append_nil] at haccess
          exact inBounds_existsAccesses hfd access haccess
      · cases haccess
    · exact mem_accesses_exists hfd (dequeueConnectionByFd_bounded h hfd).2 haccess
    · cases haccess
  · cases haccess

theorem expired_inIndexQueue {now : ℤ} (h : Bounded q) (hexpired : q.expired now = some fd) :
    InIndexQueue fd := by
  unfold QueueConnectionsType.expired peekQueueConnections at hexpired
  obtain ⟨first, hfirst, hif⟩ := Option.bind_eq_some_iff.mp hexpired
  split at hfirst
  · cases hfirst
  · obtain rfl := Option.some.inj hfirst
    split at hif
    · obtain rfl := Option.some.inj hif
      exact h.fd 0
    · cases hif

/-- **What every step of a thread keeps.** -/
theorem Worker.step_bounded (h : w.Bounded) (hstep : w.step options a = some (w', effects)) :
    w'.Bounded := by
  have hrests : ∀ {phase : Phase}, phase.loop = none → Worker.Bounded { w with phase := phase } :=
    fun hloop => ⟨h.queue, fun e he => by rw [hloop] at he; cases he⟩
  cases Worker.step_cases hstep with
  | readTime now hp => exact hrests rfl
  | sweepClose now fd hp hexpired hexists =>
    exact ⟨(dequeueConnectionByFd_bounded h.queue (expired_inIndexQueue h.queue hexpired)).1,
      h.loop⟩
  | sweepStuck now fd hp hexpired hexists => exact h
  | sweepEnd now hp hexpired => exact hrests rfl
  | epollWait events hp hlen => exact hrests rfl
  | batchEnd now mem hp => exact hrests rfl
  | server now mem events hp => exact hrests rfl
  | client now mem fd events queue slot hp hget =>
    have hfd := getConnectionOrCreateByFd_inIndexQueue hget
    obtain ⟨⟨q', index, hget', hbounded, -, hlt⟩, -⟩ :=
      getConnectionOrCreateByFd_bounded h.queue hfd now mem
    obtain ⟨rfl, rfl⟩ := Prod.mk.inj (Option.some.inj (hget.symm.trans hget'))
    refine ⟨hbounded, fun e he => ?_⟩
    obtain rfl : EventLoop.start fd slot = e := Option.some.inj he
    exact ⟨hfd, hlt⟩
  | skipped now mem fd events hp => exact hrests rfl
  | accept fd events hp => exact h
  | acceptEnd events hp => exact hrests rfl
  | call sys e e' events queue hp hcall =>
    obtain ⟨hfd, hslot⟩ := h.loop e (by rw [hp]; rfl)
    obtain ⟨hbounded, hclient, hslot'⟩ := EventLoop.step_bounded h.queue hfd hcall
    refine ⟨hbounded, fun e₁ he₁ => ?_⟩
    obtain rfl : e' = e₁ := Option.some.inj he₁
    rw [hclient, hslot']
    exact ⟨hfd, hslot⟩
  | endEvent e events hp hended => exact hrests rfl

/-- The accesses of a step that takes up no client with a descriptor out of range. -/
theorem Worker.inBounds_accesses (h : w.Bounded) (htakes : ∀ fd ∈ w.takes a, InIndexQueue fd) :
    ∀ access ∈ w.accesses a, access.InBounds := by
  intro access haccess
  cases a with
  | readTime now =>
    unfold Worker.accesses at haccess
    simp only at haccess
    split at haccess
    · exact inBounds_peekAccesses access haccess
    · cases haccess
  | sweep =>
    unfold Worker.accesses at haccess
    simp only at haccess
    split at haccess
    · rcases List.mem_append.mp haccess with haccess | haccess
      · exact inBounds_peekAccesses access haccess
      · split at haccess
        · have hfd := expired_inIndexQueue h.queue ‹_›
          exact mem_accesses_exists hfd (dequeueConnectionByFd_bounded h.queue hfd).2 haccess
        · cases haccess
    · cases haccess
  | nextEvent now mem =>
    unfold Worker.accesses at haccess
    unfold Worker.takes at htakes
    simp only at haccess htakes
    split at haccess
    · rename_i fd events hp
      simp only [hp, Option.mem_some_iff, forall_eq'] at htakes
      exact (getConnectionOrCreateByFd_bounded h.queue htakes now mem).2 access haccess
    · cases haccess
  | call sys =>
    unfold Worker.accesses at haccess
    simp only at haccess
    split at haccess
    · rename_i e events hp
      obtain ⟨hfd, hslot⟩ := h.loop e (by rw [hp]; rfl)
      exact EventLoop.inBounds_accesses h.queue hfd hslot access haccess
    · cases haccess
  | epollWait events => cases haccess
  | accept fd => cases haccess
  | acceptEnd => cases haccess
  | endEvent => cases haccess

theorem Worker.takes_inv (h : fd ∈ w.takes a) :
    ∃ now mem events, a = .nextEvent now mem ∧
      w.phase = .processing (.client fd true :: events) := by
  unfold Worker.takes at h
  split at h
  · split at h
    · obtain rfl := Option.some.inj h
      exact ⟨_, _, _, rfl, ‹_›⟩
    · cases h
  · cases h

theorem Worker.goesOn (h : w.Bounded) (htakes : fd ∈ w.takes a) (hfd : InIndexQueue fd) :
    ∃ w' effects, w.step options a = some (w', effects) ∧ (w'.queue.indexQueue fd).isSome ∧
      ∀ other ≠ fd, w'.queue.indexQueue other = w.queue.indexQueue other := by
  obtain ⟨now, mem, events, rfl, hp⟩ := Worker.takes_inv htakes
  obtain ⟨⟨q', index, hget, -, hstored, -⟩, -⟩ :=
    getConnectionOrCreateByFd_bounded h.queue hfd now mem
  refine ⟨⟨q', .handling (.start fd index) events⟩, [], ?_, ?_,
    fun other hother => getConnectionOrCreateByFd_other hget hother⟩
  · unfold Worker.step
    simp only [hp, if_true, hget, Option.map_some]
  · show (q'.indexQueue fd).isSome
    rw [hstored]
    rfl

/-- **Admission in one step**, from a bounded state. -/
theorem Worker.admits_iff (h : w.Bounded) :
    Admits options w a ↔ ∀ fd ∈ w.takes a, InIndexQueue fd := by
  constructor
  · intro hadmits fd htakes
    obtain ⟨now, mem, events, rfl, hp⟩ := Worker.takes_inv htakes
    -- the first access is the one at the descriptor
    refine inBounds_indexQueue.mp (hadmits.inBounds (.indexQueue fd) ?_)
    unfold Worker.accesses getOrCreateAccesses
    simp only [hp, List.mem_cons_self]
  · intro htakes
    refine ⟨Worker.inBounds_accesses h htakes, fun fd hfd => ?_⟩
    obtain ⟨w', effects, hstep, hstored, hothers⟩ := Worker.goesOn h hfd (htakes fd hfd)
    exact ⟨w', effects, hstep, Or.inl hstored, hothers⟩

end Steps

/-! ### Runs -/

theorem Worker.bounded_init : Worker.init.Bounded := ⟨bounded_createQueueConnections, nofun⟩

theorem Worker.bounded_of_run {options : Options} {h : List (Transition Worker WorkerAction)}
    {w : Worker} (hr : Run (fun w a w' => workerNext options w a = some w') Worker.init h w) :
    w.Bounded := by
  refine hr.invariant Worker.bounded_init fun w a w' hnext hbounded => ?_
  obtain ⟨⟨w₁, effects⟩, hstep, rfl⟩ := Option.map_eq_some_iff.mp hnext
  exact Worker.step_bounded hbounded hstep

/-- **Admission over whole runs.** All steps of a run and the one that follows it admit exactly when
every client taken up has a descriptor below `MAX_EPOLL_EVENTS`, however many connections are
open. -/
theorem admission_iff {options : Options} {h : List (Transition Worker WorkerAction)} {w : Worker}
    {a : WorkerAction}
    (hr : Run (fun w a w' => workerNext options w a = some w') Worker.init h w) :
    (Guarded (Admits options) h ∧ Admits options w a) ↔
      Guarded (fun w a => ∀ fd ∈ w.takes a, InIndexQueue fd) h ∧
        ∀ fd ∈ w.takes a, InIndexQueue fd := by
  refine and_congr (forall₂_congr fun e he => ?_) (Worker.admits_iff (Worker.bounded_of_run hr))
  obtain ⟨h', -, hr', -⟩ := hr.of_mem he
  exact Worker.admits_iff (Worker.bounded_of_run hr')

/-- A thread accepts the clients 5 to `fd`, and the last one sends something. -/
def acceptsUpTo (fd : ℕ) : List WorkerAction :=
  [WorkerAction.readTime 0, .sweep, .epollWait [.server], .nextEvent 0 .zeroed] ++
    (List.range' 5 (fd - 4)).map WorkerAction.accept ++
    [WorkerAction.acceptEnd, .nextEvent 0 .zeroed, .readTime 1, .sweep,
      .epollWait [.client fd true]]

/-- The first connection whose descriptor is past the arrays: the entry after the last of
`indexQueue` is read. -/
theorem not_admits_pastIndexQueue :
    ∃ h w, Run (fun w a w' => workerNext wwwOptions w a = some w') Worker.init h w ∧
      .indexQueue 1024 ∈ w.accesses (.nextEvent 1 .zeroed) ∧
      ¬ Admits wwwOptions w (.nextEvent 1 .zeroed) := by
  obtain ⟨h, w, hr, hp⟩ := exists_run_of_any (workerNext wwwOptions) .init (acceptsUpTo 1024)
    (p := fun w => Access.indexQueue 1024 ∈ w.accesses (.nextEvent 1 .zeroed)) (by decide +kernel)
  have hmem := of_decide_eq_true hp
  refine ⟨h, w, hr, hmem, fun hadmits => ?_⟩
  exact absurd (hadmits.inBounds _ hmem) (by decide)

/-- A connection with descriptor 9, accepted with others, is admitted. -/
theorem admission_smallDescriptor :
    Admits wwwOptions ((exec (workerNext wwwOptions) .init (acceptsUpTo 9)).get (by decide +kernel))
      (.nextEvent 1 .zeroed) :=
  ((admission_iff (run_of_isSome (by decide +kernel))).mpr
    ⟨by decide +kernel, by decide +kernel⟩).2

end UbServer

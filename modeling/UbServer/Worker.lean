import UbServer.Dispatch
import UbServer.Queue.Refine

/-!
# A worker thread

`handleEpoll` as a machine: the sweep of timed-out connections, `epoll_wait`, the events it returned,
the accept loop and the loop for one client, each in steps of at most one system call on a
descriptor.

* `Worker.step`: one step of a thread, with the effects it has on descriptors.
* `Worker.step_cases`: everything a step of a thread can do.
* `EventLoop.step_spec`, `Worker.step_spec`: what a step means for the map of the thread's queue.
-/

namespace UbServer

open QueueConnectionsType

/-- An event: a connection waits to be accepted, or a client's descriptor with `EPOLLIN` in its mask
or not. -/
inductive Event where
  | server
  | client (fd : ℕ) (epollin : Bool)
  deriving DecidableEq

/-- The descriptor of a client's event. -/
def Event.fd : Event → Option ℕ
  | .server => none
  | .client fd _ => some fd

/-- Where `handleEpoll` stands: at the top of its loop, in the sweep started at `now`, in
`epoll_wait`, before the next of the events, in `acceptEpollConnection`, or in the loop of a
client. -/
inductive Phase where
  | top
  | sweeping (now : ℤ)
  | waiting
  | processing (events : List Event)
  | accepting (events : List Event)
  | handling (e : EventLoop) (events : List Event)
  deriving DecidableEq

/-- The events that `epoll_wait` returned and that are not done. -/
def Phase.pending : Phase → List Event
  | .processing events | .accepting events | .handling _ events => events
  | _ => []

/-- The loop of a client that the thread is in. -/
def Phase.loop : Phase → Option EventLoop
  | .handling e _ => some e
  | _ => none

structure Worker where
  queue : QueueConnectionsType
  phase : Phase

/-- A thread starts with an empty queue. -/
def Worker.init : Worker := ⟨createQueueConnections, .top⟩

/-- A step of a thread, with what the system answers. -/
inductive WorkerAction where
  | readTime (now : ℤ)
  | sweep
  | epollWait (events : List Event)
  | nextEvent (now : ℤ) (mem : RequestBlock)
  | accept (fd : ℕ)
  | acceptEnd
  | call (sys : Sys)
  | endEvent

/-- The time that the step reads, if it does. -/
def WorkerAction.clock (clock : ℤ) : WorkerAction → ℤ
  | .readTime now => now
  | .nextEvent now _ => now
  | .call sys => sys.now
  | _ => clock

/-- The clock does not go back, and no client has the descriptor 0. -/
def WorkerAction.Timely (clock : ℤ) (a : WorkerAction) : Prop :=
  clock ≤ a.clock clock ∧
    match a with
    | .epollWait events => ∀ event ∈ events, ∀ fd ∈ event.fd, fd ≠ 0
    | _ => True

instance (clock : ℤ) (a : WorkerAction) : Decidable (a.Timely clock) := by
  cases a <;> unfold WorkerAction.Timely <;> infer_instance

/-- The client whose event the step takes up. -/
def Worker.takes (w : Worker) : WorkerAction → Option ℕ
  | .nextEvent .. =>
    match w.phase with
    | .processing (.client fd true :: _) => some fd
    | _ => none
  | _ => none

/-- The descriptor that the sweep closes next. -/
def QueueConnectionsType.expired (q : QueueConnectionsType) (now : ℤ) : Option ℕ :=
  (peekQueueConnections q).bind fun first =>
    if first.clientFd ≠ 0 ∧ difftime now first.priorityTime ≥ keepAliveTimeout then
      some first.clientFd
    else none

/-- One step: the thread afterwards, and the effects with their descriptors. -/
def Worker.step (options : Options) (w : Worker) : WorkerAction →
    Option (Worker × List (ℕ × Effect))
  | .readTime now =>
    match w.phase with
    | .top => some ({ w with phase := .sweeping now }, [])
    | _ => none
  | .sweep =>
    match w.phase with
    | .sweeping now =>
      match w.queue.expired now with
      | some fd =>
        if existsConnection w.queue fd then
          some ({ w with queue := dequeueConnectionByFd w.queue fd }, [(fd, .closed)])
        else some (w, [])
      | none => some ({ w with phase := .waiting }, [])
    | _ => none
  | .epollWait events =>
    match w.phase with
    | .waiting =>
      if events.length ≤ maxEpollEvents then some ({ w with phase := .processing events }, [])
      else none
    | _ => none
  | .nextEvent now mem =>
    match w.phase with
    | .processing [] => some ({ w with phase := .top }, [])
    | .processing (.server :: events) => some ({ w with phase := .accepting events }, [])
    | .processing (.client fd epollin :: events) =>
      if epollin then
        (getConnectionOrCreateByFd w.queue fd now mem).map fun (queue, slot) =>
          (⟨queue, .handling (.start fd slot) events⟩, [])
      else some ({ w with phase := .processing events }, [])
    | _ => none
  | .accept _ =>
    match w.phase with
    | .accepting _ => some (w, [])
    | _ => none
  | .acceptEnd =>
    match w.phase with
    | .accepting events => some ({ w with phase := .processing events }, [])
    | _ => none
  | .call sys =>
    match w.phase with
    | .handling e events =>
      (e.step options w.queue sys).map fun (queue, e') =>
        (⟨queue, .handling e' events⟩,
          (e'.effects.drop e.effects.length).map fun effect => (e.clientFd, effect))
    | _ => none
  | .endEvent =>
    match w.phase with
    | .handling e events =>
      if e.pc = .ended then some ({ w with phase := .processing events }, []) else none
    | _ => none

/-- Everything a step of a thread can do. -/
inductive Worker.Stepped (options : Options) (w : Worker) :
    WorkerAction → Worker → List (ℕ × Effect) → Prop
  | readTime (now : ℤ) : w.phase = .top →
      Stepped options w (.readTime now) { w with phase := .sweeping now } []
  | sweepClose (now : ℤ) (fd : ℕ) : w.phase = .sweeping now → w.queue.expired now = some fd →
      existsConnection w.queue fd →
      Stepped options w .sweep { w with queue := dequeueConnectionByFd w.queue fd } [(fd, .closed)]
  | sweepStuck (now : ℤ) (fd : ℕ) : w.phase = .sweeping now → w.queue.expired now = some fd →
      ¬ existsConnection w.queue fd → Stepped options w .sweep w []
  | sweepEnd (now : ℤ) : w.phase = .sweeping now → w.queue.expired now = none →
      Stepped options w .sweep { w with phase := .waiting } []
  | epollWait (events : List Event) : w.phase = .waiting → events.length ≤ maxEpollEvents →
      Stepped options w (.epollWait events) { w with phase := .processing events } []
  | batchEnd (now : ℤ) (mem : RequestBlock) : w.phase = .processing [] →
      Stepped options w (.nextEvent now mem) { w with phase := .top } []
  | server (now : ℤ) (mem : RequestBlock) (events : List Event) :
      w.phase = .processing (.server :: events) →
      Stepped options w (.nextEvent now mem) { w with phase := .accepting events } []
  | client (now : ℤ) (mem : RequestBlock) (fd : ℕ) (events : List Event)
      (queue : QueueConnectionsType) (slot : ℕ) :
      w.phase = .processing (.client fd true :: events) →
      getConnectionOrCreateByFd w.queue fd now mem = some (queue, slot) →
      Stepped options w (.nextEvent now mem) ⟨queue, .handling (.start fd slot) events⟩ []
  | skipped (now : ℤ) (mem : RequestBlock) (fd : ℕ) (events : List Event) :
      w.phase = .processing (.client fd false :: events) →
      Stepped options w (.nextEvent now mem) { w with phase := .processing events } []
  | accept (fd : ℕ) (events : List Event) : w.phase = .accepting events →
      Stepped options w (.accept fd) w []
  | acceptEnd (events : List Event) : w.phase = .accepting events →
      Stepped options w .acceptEnd { w with phase := .processing events } []
  | call (sys : Sys) (e e' : EventLoop) (events : List Event) (queue : QueueConnectionsType) :
      w.phase = .handling e events → e.step options w.queue sys = some (queue, e') →
      Stepped options w (.call sys) ⟨queue, .handling e' events⟩
        ((e'.effects.drop e.effects.length).map fun effect => (e.clientFd, effect))
  | endEvent (e : EventLoop) (events : List Event) : w.phase = .handling e events →
      e.pc = .ended → Stepped options w .endEvent { w with phase := .processing events } []

/-- **The cases of a step of a thread.** -/
theorem Worker.step_cases {options : Options} {w w' : Worker} {a : WorkerAction}
    {effects : List (ℕ × Effect)} (h : w.step options a = some (w', effects)) :
    w.Stepped options a w' effects := by
  unfold Worker.step at h
  cases a with
  | readTime now =>
    simp only at h
    split at h
    · obtain ⟨rfl, rfl⟩ := Prod.mk.inj (Option.some.inj h)
      exact .readTime now ‹_›
    · cases h
  | sweep =>
    simp only at h
    split at h
    · split at h
      · split at h <;> obtain ⟨rfl, rfl⟩ := Prod.mk.inj (Option.some.inj h)
        · exact .sweepClose _ _ ‹_› ‹_› ‹_›
        · exact .sweepStuck _ _ ‹_› ‹_› ‹_›
      · obtain ⟨rfl, rfl⟩ := Prod.mk.inj (Option.some.inj h)
        exact .sweepEnd _ ‹_› ‹_›
    · cases h
  | epollWait events =>
    simp only at h
    split at h
    · split at h
      · obtain ⟨rfl, rfl⟩ := Prod.mk.inj (Option.some.inj h)
        exact .epollWait events ‹_› ‹_›
      · cases h
    · cases h
  | nextEvent now mem =>
    simp only at h
    split at h
    · obtain ⟨rfl, rfl⟩ := Prod.mk.inj (Option.some.inj h)
      exact .batchEnd now mem ‹_›
    · obtain ⟨rfl, rfl⟩ := Prod.mk.inj (Option.some.inj h)
      exact .server now mem _ ‹_›
    · rename_i fd epollin events hphase
      cases epollin with
      | true =>
        obtain ⟨⟨queue, slot⟩, hget, h⟩ := Option.map_eq_some_iff.mp h
        obtain ⟨rfl, rfl⟩ := Prod.mk.inj h
        exact .client now mem fd events queue slot hphase hget
      | false =>
        obtain ⟨rfl, rfl⟩ := Prod.mk.inj (Option.some.inj h)
        exact .skipped now mem fd events hphase
    · cases h
  | accept fd =>
    simp only at h
    split at h
    · obtain ⟨rfl, rfl⟩ := Prod.mk.inj (Option.some.inj h)
      exact .accept fd _ ‹_›
    · cases h
  | acceptEnd =>
    simp only at h
    split at h
    · obtain ⟨rfl, rfl⟩ := Prod.mk.inj (Option.some.inj h)
      exact .acceptEnd _ ‹_›
    · cases h
  | call sys =>
    simp only at h
    split at h
    · obtain ⟨⟨queue, e'⟩, hstep, h⟩ := Option.map_eq_some_iff.mp h
      obtain ⟨rfl, rfl⟩ := Prod.mk.inj h
      exact .call sys _ e' _ queue ‹_› hstep
    · cases h
  | endEvent =>
    simp only at h
    split at h
    · split at h
      · obtain ⟨rfl, rfl⟩ := Prod.mk.inj (Option.some.inj h)
        exact .endEvent _ _ ‹_› ‹_›
      · cases h
    · cases h

/-! ### The loop of one client on the map -/

/-- The steps of the loop on the map: the record of the client changes, or it is replaced by a fresh
one and the descriptor re-armed, or it is removed and the descriptor closed. -/
inductive EventLoop.Handled (q : QueueConnectionsType) (e : EventLoop) (sys : Sys)
    (q' : QueueConnectionsType) : EventLoop → Prop
  | turned (pc : Pc) (effects : List Effect) :
      getConnectionByFd q' =
        Function.update (getConnectionByFd q) e.clientFd (some (q'.connections e.slot)) →
      q'.indexQueue e.clientFd = some e.slot →
      SameClient (q.connections e.slot) (q'.connections e.slot) → pc ≠ .ended →
      ¬ (e.pc = .switch ∧ (q.connections e.slot).state = .doneForClose) →
      (((q.connections e.slot).state = .doneForClose → e.pc = .switch) →
        (q'.connections e.slot).state = .doneForClose → pc = .switch) →
      TurnEffects sys (q'.connections e.slot) effects → Handled q e sys q' (e.goto pc effects)
  | updated :
      getConnectionByFd q' = Function.update (getConnectionByFd q) e.clientFd
        (some (freshConnection e.clientFd sys.now sys.mem)) →
      Handled q e sys q' (e.goto .ended [.logged, .rearmed])
  | dequeued :
      getConnectionByFd q' = Function.update (getConnectionByFd q) e.clientFd none →
      (q.connections e.slot).state = .doneForClose →
      Handled q e sys q' (e.goto .ended [.closed])

section Loop

variable {options : Options} {clock : ℤ} {q q' : QueueConnectionsType} {e e' : EventLoop} {sys : Sys}

/-- **The loop on the map.** -/
theorem EventLoop.step_spec (hw : WellTimed clock q) (hle : clock ≤ sys.now)
    (hi : q.indexQueue e.clientFd = some e.slot) (h : e.step options q sys = some (q', e')) :
    WellTimed sys.now q' ∧ e.Handled q sys q' e' := by
  obtain ⟨hin, hfd⟩ := hw.exact.name_pos _ _ hi
  have hexists : existsConnection q e.clientFd := by
    unfold existsConnection
    rw [hi]
    rfl
  cases EventLoop.step_cases h with
  | turned c pc effects hsame hpc hopen hclose heffects =>
    have hslot : (q.setConnection e.slot c).connections e.slot = c := by simp [setConnection]
    have hm : getConnectionByFd (q.setConnection e.slot c) = _ := setConnection_map hw.exact hi
    refine ⟨hw.of_map hle (setConnection_indexExact hw.exact hsame.1)
      (setConnection_sized hw.sized hsame.1) hm fun c' hc' => ?_, ?_⟩
    · obtain rfl := Option.some.inj hc'
      rw [hsame.2]
      exact (hw.past _ hin).trans hle
    · refine .turned pc effects ?_ hi ?_ hpc hopen ?_ ?_ <;> rw [hslot] <;> assumption
  | updated q' hstate hexists hupdate =>
    obtain ⟨q'', hq'', he, hs, hm⟩ := updateQueueConnection_spec sys.mem hw.exact hw.sized hi
      (hw.not_updateTurns hle)
    obtain rfl := Option.some.inj (hupdate.symm.trans hq'')
    refine ⟨hw.of_map hle he hs hm fun c hc => ?_, .updated hm⟩
    obtain rfl := Option.some.inj hc
    exact le_rfl
  | dequeued hstate hexists =>
    obtain ⟨he, hs, hm⟩ := dequeueConnectionByFd_spec hw.exact hw.sized e.clientFd
    exact ⟨hw.of_map hle he hs hm (fun c hc => by cases hc), .dequeued hm hstate⟩
  | absent effects habsent heffects => exact absurd hexists habsent

end Loop

/-! ### A thread on the map -/

/-- Between two steps of a thread: its queue is well-timed, its sweep has not started in the future,
no event to come is for the descriptor 0, and the slot of a loop that goes on is its client's. -/
structure Worker.Sound (clock : ℤ) (w : Worker) : Prop where
  timed : WellTimed clock w.queue
  sweep : ∀ now, w.phase = .sweeping now → now ≤ clock
  events : ∀ event ∈ w.phase.pending, ∀ fd ∈ event.fd, fd ≠ 0
  slot : ∀ e ∈ w.phase.loop, e.pc ≠ .ended → w.queue.indexQueue e.clientFd = some e.slot

/-- The queue stays, and the thread is in no loop afterwards. -/
structure Worker.Rests (w w' : Worker) : Prop where
  queue : w'.queue = w.queue
  loop : w'.phase.loop = none
  ended : ∀ e ∈ w.phase.loop, e.pc = .ended

/-- The steps of a thread on the map: nothing happens to it, the sweep removes a record that is old
enough and closes its descriptor, an event is taken up with the record there is or a fresh one, or
the loop of a client makes a step. -/
inductive Worker.Moved (w : Worker) : WorkerAction → Worker → List (ℕ × Effect) → Prop
  | rested (a : WorkerAction) (w' : Worker) : w.Rests w' → w.takes a = none → Moved w a w' []
  | swept (now : ℤ) (fd : ℕ) (c : QueueConnectionElementType) (w' : Worker) :
      w.phase = .sweeping now → w'.phase = .sweeping now → w.queue.expired now = some fd →
      getConnectionByFd w.queue fd = some c →
      difftime now c.priorityTime ≥ keepAliveTimeout →
      getConnectionByFd w'.queue = Function.update (getConnectionByFd w.queue) fd none →
      Moved w .sweep w' [(fd, .closed)]
  | taken (now : ℤ) (mem : RequestBlock) (fd slot : ℕ) (w' : Worker) :
      w.takes (.nextEvent now mem) = some fd → w.phase.loop = none → ClientFd fd →
      w'.phase.loop = some (.start fd slot) →
      getConnectionByFd w'.queue = Function.update (getConnectionByFd w.queue) fd
        (some ((getConnectionByFd w.queue fd).getD (freshConnection fd now mem))) →
      Moved w (.nextEvent now mem) w' []
  | handled (sys : Sys) (e e' : EventLoop) (w' : Worker) : w.phase.loop = some e → e.pc ≠ .ended →
      w'.phase.loop = some e' → e.Handled w.queue sys w'.queue e' →
      Moved w (.call sys) w'
        ((e'.effects.drop e.effects.length).map fun effect => (e.clientFd, effect))

section Threads

variable {options : Options} {clock : ℤ} {w w' : Worker} {a : WorkerAction}
  {effects : List (ℕ × Effect)}

theorem Worker.sound_init (clock : ℤ) : Worker.init.Sound clock where
  timed := wellTimed_create clock
  sweep := fun _ h => by cases h
  events := fun _ he => absurd he List.not_mem_nil
  slot := fun _ he => by cases he

theorem Worker.Sound.mono {now : ℤ} (h : w.Sound clock) (hle : clock ≤ now) : w.Sound now :=
  ⟨h.timed.mono hle, fun start hp => (h.sweep start hp).trans hle, h.events, h.slot⟩

theorem Worker.Sound.record {e : EventLoop} (h : w.Sound clock) (he : w.phase.loop = some e)
    (hpc : e.pc ≠ .ended) :
    getConnectionByFd w.queue e.clientFd = some (w.queue.connections e.slot) := by
  unfold getConnectionByFd
  rw [h.slot e he hpc]
  rfl

theorem WellTimed.expired {q : QueueConnectionsType} {now : ℤ} {fd : ℕ} (h : WellTimed clock q)
    (hfd : q.expired now = some fd) :
    ∃ c, getConnectionByFd q fd = some c ∧ difftime now c.priorityTime ≥ keepAliveTimeout := by
  obtain ⟨first, hfirst, hif⟩ := Option.bind_eq_some_iff.mp hfd
  unfold peekQueueConnections at hfirst
  by_cases hsize : q.currentSize = 0
  · rw [if_pos hsize] at hfirst
    cases hfirst
  · rw [if_neg hsize] at hfirst
    obtain rfl := Option.some.inj hfirst
    by_cases hold : (q.connections 0).clientFd ≠ 0 ∧
        difftime now (q.connections 0).priorityTime ≥ keepAliveTimeout
    · rw [if_pos hold] at hif
      obtain rfl := Option.some.inj hif
      exact ⟨_, getConnectionByFd_fd h.exact (Nat.pos_of_ne_zero hsize), hold.2⟩
    · rw [if_neg hold] at hif
      cases hif

theorem getConnectionOrCreateByFd_inIndexQueue {q q' : QueueConnectionsType} {fd index : ℕ}
    {now : ℤ} {mem : RequestBlock} (h : getConnectionOrCreateByFd q fd now mem = some (q', index)) :
    InIndexQueue fd := by
  unfold getConnectionOrCreateByFd at h
  by_cases hin : InIndexQueue fd
  · exact hin
  · rw [if_neg hin] at h
    cases h

theorem EventLoop.step_ended {e e' : EventLoop} {q q' : QueueConnectionsType} {sys : Sys}
    (h : e.step options q sys = some (q', e')) : e.pc ≠ .ended := by
  intro hpc
  rw [EventLoop.step_of_ended hpc] at h
  cases h

/-- A step of a thread that leaves its queue, is in no loop afterwards and starts no sweep. -/
theorem Worker.Sound.rested (h : w.Sound clock) (hr : w.Rests w')
    (hsweep : ∀ now, w'.phase = .sweeping now → now ≤ clock)
    (hevents : ∀ event ∈ w'.phase.pending, ∀ fd ∈ event.fd, fd ≠ 0) : w'.Sound clock :=
  ⟨hr.queue ▸ h.timed, hsweep, hevents, fun e he => by rw [hr.loop] at he; cases he⟩

/-- **A thread on the map.** -/
theorem Worker.step_spec (hs : w.Sound clock) (ha : a.Timely clock)
    (h : w.step options a = some (w', effects)) :
    w'.Sound (a.clock clock) ∧ w.Moved a w' effects := by
  obtain ⟨hle, hevents⟩ := ha
  have hs' := hs.mono hle
  -- the threads that are in no loop before the step
  have hrests : ∀ {phase} (phase'), w.phase = phase → phase.loop = none → phase'.loop = none →
      w.Rests { w with phase := phase' } := by
    rintro phase phase' rfl hl hl'
    exact ⟨rfl, hl', fun e he => by rw [hl] at he; cases he⟩
  have hsame : ∀ {phase}, w.phase = phase → phase.loop = none → w.Rests w := by
    rintro phase rfl hl
    exact hrests w.phase rfl hl hl
  cases Worker.step_cases h with
  | readTime now hp =>
    have hr := hrests (.sweeping now) hp rfl rfl
    refine ⟨hs'.rested hr (fun start hp => ?_) (by simp [Phase.pending]), .rested _ _ hr rfl⟩
    obtain rfl := Phase.sweeping.inj hp
    exact le_rfl
  | sweepClose now fd hp hexpired hexists =>
    obtain ⟨he, hsz, hm⟩ := dequeueConnectionByFd_spec hs.timed.exact hs.timed.sized fd
    obtain ⟨c, hc, hold⟩ := hs.timed.expired hexpired
    refine ⟨⟨hs.timed.of_map hle he hsz hm (fun c hc => by cases hc), hs.sweep, hs.events, ?_⟩,
      .swept now fd c _ hp hp hexpired hc hold hm⟩
    intro e he
    rw [show ({ w with queue := dequeueConnectionByFd w.queue fd } : Worker).phase = w.phase from rfl,
      hp] at he
    cases he
  | sweepStuck now fd hp hexpired hexists => exact ⟨hs', .rested _ _ (hsame hp rfl) rfl⟩
  | sweepEnd now hp hexpired =>
    have hr := hrests .waiting hp rfl rfl
    exact ⟨hs'.rested hr (by simp) (by simp [Phase.pending]), .rested _ _ hr rfl⟩
  | epollWait events hp hlen =>
    have hr := hrests (.processing events) hp rfl rfl
    exact ⟨hs'.rested hr (by simp) hevents, .rested _ _ hr rfl⟩
  | batchEnd now mem hp =>
    have hr := hrests .top hp rfl rfl
    exact ⟨hs'.rested hr (by simp) (by simp [Phase.pending]), .rested _ _ hr (by simp [takes, hp])⟩
  | server now mem events hp =>
    have hr := hrests (.accepting events) hp rfl rfl
    refine ⟨hs'.rested hr (by simp) fun event he => ?_, .rested _ _ hr (by simp [takes, hp])⟩
    exact hs.events event (by rw [hp]; exact List.mem_cons_of_mem _ he)
  | client now mem fd events queue slot hp hget =>
    have hin : ∀ event ∈ .client fd true :: events, ∀ fd ∈ event.fd, fd ≠ 0 := by
      intro event he
      exact hs.events event (by rw [hp]; exact he)
    have hfd : ClientFd fd :=
      ⟨Nat.pos_of_ne_zero (hin _ List.mem_cons_self fd rfl),
        getConnectionOrCreateByFd_inIndexQueue hget⟩
    obtain ⟨q', index, hq', hw', hidx, -, hm⟩ := hs.timed.getConnectionOrCreateByFd hle hfd mem
    obtain ⟨rfl, rfl⟩ := Prod.mk.inj (Option.some.inj (hget.symm.trans hq'))
    refine ⟨⟨hw', by simp, fun event he => hin event (List.mem_cons_of_mem _ he), ?_⟩,
      .taken now mem fd slot _ (by simp [takes, hp]) (by rw [hp]; rfl) hfd rfl hm⟩
    intro e he hpc
    obtain rfl : EventLoop.start fd slot = e := Option.some.inj he
    exact hidx
  | skipped now mem fd events hp =>
    have hr := hrests (.processing events) hp rfl rfl
    refine ⟨hs'.rested hr (by simp) fun event he => ?_, .rested _ _ hr (by simp [takes, hp])⟩
    exact hs.events event (by rw [hp]; exact List.mem_cons_of_mem _ he)
  | accept fd events hp => exact ⟨hs', .rested _ _ (hsame hp rfl) rfl⟩
  | acceptEnd events hp =>
    have hr := hrests (.processing events) hp rfl rfl
    refine ⟨hs'.rested hr (by simp) fun event he => ?_, .rested _ _ hr rfl⟩
    exact hs.events event (by rw [hp]; exact he)
  | call sys e e' events queue hp hcall =>
    have hloop : w.phase.loop = some e := by rw [hp]; rfl
    have hpc := EventLoop.step_ended hcall
    obtain ⟨hw', hhandled⟩ := EventLoop.step_spec hs.timed hle (hs.slot e hloop hpc) hcall
    refine ⟨⟨hw', by simp, ?_, ?_⟩, .handled sys e e' _ hloop hpc rfl hhandled⟩
    · intro event he
      exact hs.events event (by rw [hp]; exact he)
    · intro e₁ he₁ hpc₁
      obtain rfl : e' = e₁ := Option.some.inj he₁
      cases hhandled with
      | turned pc effects hm hidx hsame hne hopen hclose heffects => exact hidx
      | updated hm => exact absurd rfl hpc₁
      | dequeued hm hstate => exact absurd rfl hpc₁
  | endEvent e events hp hended =>
    have hr : w.Rests { w with phase := .processing events } := by
      refine ⟨rfl, rfl, fun e₁ he₁ => ?_⟩
      rw [hp] at he₁
      obtain rfl : e = e₁ := Option.some.inj he₁
      exact hended
    refine ⟨hs'.rested hr (by simp) fun event he => ?_, .rested _ _ hr rfl⟩
    exact hs.events event (by rw [hp]; exact he)

end Threads

end UbServer

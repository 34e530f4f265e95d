import UbServer.Worker
import UbServer.Lib.Runs

/-!
# The threads of the server

`acceptClientsThreadEpoll`: any number of threads in `handleEpoll`, each with its own queue, over one
`epoll` instance and one descriptor table. The kernel hands out any descriptor number that is not
open, reports an event of an armed client to one thread and disarms it.

* `System`: the clock, the open sockets, the threads, and a ledger of what has happened.
* `System.next`: a step of one thread with what the kernel answers, or of the clock.
* `System.step_cases`: everything a step can do.
-/

namespace UbServer

open Runs QueueConnectionsType

/-- An open socket of a client: how many connections had got its descriptor number when it was
accepted, and whether `epoll` reports its next event. -/
structure Socket where
  incarnation : ℕ
  armed : Bool

/-- A part of a response: its descriptor, the incarnation it was sent to, and those that the bytes
received in the same loop came from. -/
structure Written where
  fd : ℕ
  target : ℕ
  sources : List ℕ

/-- The state. The last four fields are a ledger that no thread reads: the incarnations from which
each thread has received in its loop, what was sent, when a connection last completed a request, and
whether a thread has taken up an event of the descriptor since it was accepted, or had a record of
its number then. -/
structure System (n : ℕ) where
  clock : ℤ
  sockets : ℕ → Option Socket
  accepts : ℕ → ℕ
  workers : Fin n → Worker
  sources : Fin n → List ℕ
  written : List Written
  completed : ℕ → ℕ → Option ℤ
  heard : ℕ → Bool

def System.init (n : ℕ) (clock : ℤ) : System n where
  clock := clock
  sockets _ := none
  accepts _ := 0
  workers _ := .init
  sources _ := []
  written := []
  completed _ _ := none
  heard _ := false

/-- Time passes, or a thread makes a step. -/
inductive SystemAction (n : ℕ) where
  | tick (now : ℤ)
  | thread (t : Fin n) (a : WorkerAction)

section Steps

variable {n : ℕ} (s : System n) (t : Fin n)

/-- What the kernel can answer: the time is the same for all threads, `epoll_wait` reports armed
sockets, each once, `accept` returns a number that is not open, and calls on a descriptor that is not
open fail. -/
def System.Answers (a : WorkerAction) : Prop :=
  a.clock s.clock = s.clock ∧
    match a with
    | .epollWait events => (events.filterMap Event.fd).Nodup ∧
        ∀ event ∈ events, ∀ fd ∈ event.fd, (s.sockets fd).any Socket.armed
    | .accept fd => fd ≠ 0 ∧ (s.sockets fd).isNone
    | .call sys => ∀ e ∈ (s.workers t).phase.loop, (s.sockets e.clientFd).isNone →
        sys.recv = .error ∧ sys.send = .error ∧ sys.request.peer = none
    | _ => True

instance : (a : WorkerAction) → Decidable (s.Answers t a)
  | .epollWait events => inferInstanceAs (Decidable (_ = _ ∧ (events.filterMap Event.fd).Nodup ∧
      ∀ event ∈ events, ∀ fd ∈ event.fd, (s.sockets fd).any Socket.armed))
  | .accept fd => inferInstanceAs (Decidable (_ = _ ∧ fd ≠ 0 ∧ (s.sockets fd).isNone))
  | .call sys => inferInstanceAs (Decidable (_ = _ ∧ ∀ e ∈ (s.workers t).phase.loop,
      (s.sockets e.clientFd).isNone →
        sys.recv = .error ∧ sys.send = .error ∧ sys.request.peer = none))
  | .readTime _ | .sweep | .nextEvent .. | .acceptEnd | .endEvent =>
    inferInstanceAs (Decidable (_ = _ ∧ True))

/-- A thread has a record of the descriptor. -/
def System.Recorded (fd : ℕ) : Prop := ∃ t, existsConnection (s.workers t).queue fd

instance (fd : ℕ) : Decidable (s.Recorded fd) := inferInstanceAs (Decidable (∃ _, _))

/-- `EPOLLONESHOT`: the sockets whose events are reported are disarmed. -/
def System.disarm (events : List Event) (fd : ℕ) : Option Socket :=
  (s.sockets fd).map fun socket =>
    { socket with armed := socket.armed && !(events.filterMap Event.fd).contains fd }

/-- What a step does outside the thread before its effects on descriptors: `epoll_wait` disarms,
`accept` opens and arms, and an event that is taken up begins a loop. -/
def System.enter (a : WorkerAction) : System n :=
  match a with
  | .epollWait events => { s with sockets := s.disarm events }
  | .accept fd =>
    { s with
      sockets := Function.update s.sockets fd (some ⟨s.accepts fd + 1, true⟩)
      accepts := Function.update s.accepts fd (s.accepts fd + 1)
      heard := Function.update s.heard fd (s.Recorded fd) }
  | a =>
    match (s.workers t).takes a with
    | some fd =>
      { s with
        sources := Function.update s.sources t []
        heard := Function.update s.heard fd true }
    | none => s

/-- The times of completion with a request that the thread has received completed now. -/
def System.complete (fd : ℕ) : ℕ → ℕ → Option ℤ :=
  Function.update s.completed fd fun incarnation =>
    if incarnation ∈ s.sources t then some s.clock else s.completed fd incarnation

/-- One effect on a descriptor. To re-arm a descriptor that is not open is `die`. -/
def System.perform (s : System n) : ℕ × Effect → Option (System n)
  | (fd, .received _) => (s.sockets fd).map fun socket =>
      { s with sources := Function.update s.sources t (socket.incarnation :: s.sources t) }
  | (fd, .sent _) => (s.sockets fd).map fun socket =>
      { s with written := ⟨fd, socket.incarnation, s.sources t⟩ :: s.written }
  | (fd, .logged) => some { s with completed := s.complete t fd }
  | (fd, .rearmed) => (s.sockets fd).map fun socket =>
      { s with sockets := Function.update s.sockets fd (some { socket with armed := true }) }
  | (fd, .closed) => some { s with sockets := Function.update s.sockets fd none }

/-- The thread further on. -/
def System.setWorker (w : Worker) : System n :=
  { s with workers := Function.update s.workers t w }

/-- One step. -/
def System.next (options : Options) (s : System n) : SystemAction n → Option (System n)
  | .tick now => if s.clock ≤ now then some { s with clock := now } else none
  | .thread t a =>
    if s.Answers t a then
      ((s.workers t).step options a).bind fun (w, effects) =>
        effects.foldlM (System.perform t) ((s.enter t a).setWorker t w)
    else none

end Steps

/-- One step, as a step relation. -/
abbrev SystemStep {n : ℕ} (options : Options) (s : System n) (a : SystemAction n) (s' : System n) :
    Prop := s.next options a = some s'

/-! ### What a step does -/

section Views

variable {n : ℕ} (s : System n)

/-- The records of a thread. -/
def System.records (t : Fin n) : FdMap := getConnectionByFd (s.workers t).queue

/-- The loop of a client that a thread is in. -/
def System.loop (t : Fin n) : Option EventLoop := (s.workers t).phase.loop

@[simp] theorem System.records_setWorker (t : Fin n) (w : Worker) :
    (s.setWorker t w).records t = getConnectionByFd w.queue := by
  simp [System.records, System.setWorker]

@[simp] theorem System.loop_setWorker (t : Fin n) (w : Worker) :
    (s.setWorker t w).loop t = w.phase.loop := by
  simp [System.loop, System.setWorker]

/-- The connection that is open on a descriptor. -/
def System.connection (fd : ℕ) : Option ℕ := (s.sockets fd).map Socket.incarnation

theorem System.recorded_iff {fd : ℕ} : s.Recorded fd ↔ ∃ t, s.records t fd ≠ none := by
  simp [System.Recorded, System.records, existsConnection, getConnectionByFd_eq_none,
    Option.isSome_iff_ne_none]

theorem System.connection_eq_none {fd : ℕ} : s.connection fd = none ↔ s.sockets fd = none := by
  simp [System.connection]

theorem System.connection_of_socket {fd : ℕ} {socket : Socket} (h : s.sockets fd = some socket) :
    s.connection fd = some socket.incarnation := by
  rw [System.connection, h]
  rfl

variable {s} in
theorem System.records_step {s' : System n} {t : Fin n} {w' : Worker} {fd : ℕ}
    {r : Option QueueConnectionElementType}
    (hworkers : s'.workers = Function.update s.workers t w')
    (hm : getConnectionByFd w'.queue = Function.update (s.records t) fd r) (u : Fin n) (x : ℕ) :
    s'.records u x = if u = t ∧ x = fd then r else s.records u x := by
  unfold System.records
  rw [hworkers]
  by_cases hu : u = t
  · subst hu
    rw [Function.update_self, hm]
    by_cases hx : x = fd
    · rw [if_pos ⟨rfl, hx⟩, hx, Function.update_self]
    · rw [if_neg (fun h => hx h.2), Function.update_of_ne hx]
      rfl
  · rw [Function.update_of_ne hu, if_neg (fun h => hu h.1)]

variable {s} in
theorem System.records_rests {s' : System n} {t : Fin n} {w' : Worker}
    (hworkers : s'.workers = Function.update s.workers t w') (hrests : (s.workers t).Rests w') :
    s'.records = s.records := by
  funext u
  unfold System.records
  rw [hworkers]
  by_cases hu : u = t
  · subst hu
    rw [Function.update_self, hrests.queue]
  · rw [Function.update_of_ne hu]

variable {s} in
theorem System.connection_closed {s' : System n} {fd fd' incarnation : ℕ}
    (hsockets : s'.sockets = Function.update s.sockets fd none)
    (hopen : s'.connection fd' = some incarnation) :
    fd' ≠ fd ∧ s.connection fd' = some incarnation := by
  unfold System.connection at hopen
  rw [hsockets] at hopen
  by_cases hfd : fd' = fd
  · rw [hfd, Function.update_self] at hopen
    cases hopen
  · rw [Function.update_of_ne hfd] at hopen
    exact ⟨hfd, hopen⟩

variable {s} in
theorem System.connection_rearmed {s' : System n} {fd : ℕ} {socket : Socket}
    (hsocket : s.sockets fd = some socket)
    (hsockets : s'.sockets = Function.update s.sockets fd (some { socket with armed := true })) :
    s'.connection = s.connection := by
  funext fd'
  unfold System.connection
  rw [hsockets]
  by_cases hfd : fd' = fd
  · rw [hfd, Function.update_self, hsocket]
    rfl
  · rw [Function.update_of_ne hfd]

/-- The sockets, the threads' queues and their phases are in order. -/
structure System.Sound : Prop where
  workers : ∀ t, (s.workers t).Sound s.clock
  clients : ∀ fd, s.connection fd ≠ none → fd ≠ 0

/-- A step of a loop that goes on: the record of its client afterwards, with the same time, and the
loop afterwards. A record that is to be closed is so from the step on after which the loop is at the
`switch`, and the next step closes it. -/
structure System.Turned (t : Fin n) (e : EventLoop) (w' : Worker) (e' : EventLoop)
    (c c' : QueueConnectionElementType) : Prop where
  loop : s.loop t = some e
  loop' : w'.phase.loop = some e'
  client : e'.clientFd = e.clientFd
  running : e.pc ≠ .ended
  record : s.records t e.clientFd = some c
  records : getConnectionByFd w'.queue = Function.update (s.records t) e.clientFd (some c')
  same : SameClient c c'
  notClosing : ¬ (e.pc = .switch ∧ c.state = .doneForClose)
  closing : (c.state = .doneForClose → e.pc = .switch) → c'.state = .doneForClose → e'.pc = .switch

/-- What such a step notes in the ledger. -/
inductive System.Noted (t : Fin n) (fd : ℕ) (c' : QueueConnectionElementType) :
    (Fin n → List ℕ) → List Written → (ℕ → ℕ → Option ℤ) → Prop
  | silent : Noted t fd c' s.sources s.written s.completed
  | received (incarnation : ℕ) : s.connection fd = some incarnation →
      Noted t fd c' (Function.update s.sources t (incarnation :: s.sources t)) s.written s.completed
  | sent (incarnation : ℕ) : s.connection fd = some incarnation →
      Noted t fd c' s.sources (⟨fd, incarnation, s.sources t⟩ :: s.written) s.completed
  | logged : c'.state = .doneForClose → Noted t fd c' s.sources s.written (s.complete t fd)

/-- Everything a step can do: time passes; a thread rests, accepts a connection, closes a descriptor
in its sweep, takes up an event, or makes a step of a loop that goes on, renews the record and
re-arms, or removes the record and closes. -/
inductive System.Stepped : SystemAction n → System n → Prop
  | tick (now : ℤ) : s.clock ≤ now → Stepped (.tick now) { s with clock := now }
  | rested (t : Fin n) (a : WorkerAction) (w' : Worker) (sockets : ℕ → Option Socket) :
      (s.workers t).Rests w' → (∀ fd, (sockets fd).map Socket.incarnation = s.connection fd) →
      Stepped (.thread t a) { s.setWorker t w' with sockets := sockets }
  | accepted (t : Fin n) (fd : ℕ) (w' : Worker) : (s.workers t).Rests w' → fd ≠ 0 →
      s.connection fd = none →
      Stepped (.thread t (.accept fd)) ((s.enter t (.accept fd)).setWorker t w')
  | swept (t : Fin n) (now : ℤ) (fd : ℕ) (c : QueueConnectionElementType) (w' : Worker) :
      (s.workers t).phase = .sweeping now → w'.phase = .sweeping now →
      (s.workers t).queue.expired now = some fd → s.records t fd = some c →
      difftime now c.priorityTime ≥ keepAliveTimeout →
      getConnectionByFd w'.queue = Function.update (s.records t) fd none →
      Stepped (.thread t .sweep)
        { s.setWorker t w' with sockets := Function.update s.sockets fd none }
  | taken (t : Fin n) (now : ℤ) (mem : RequestBlock) (fd slot : ℕ) (w' : Worker) :
      s.loop t = none → w'.phase.loop = some (.start fd slot) →
      getConnectionByFd w'.queue = Function.update (s.records t) fd
        (some ((s.records t fd).getD (freshConnection fd now mem))) →
      Stepped (.thread t (.nextEvent now mem))
        { s.setWorker t w' with
          sources := Function.update s.sources t []
          heard := Function.update s.heard fd true }
  | turned (t : Fin n) (sys : Sys) (e : EventLoop) (w' : Worker) (e' : EventLoop)
      (c c' : QueueConnectionElementType) (sources : Fin n → List ℕ) (written : List Written)
      (completed : ℕ → ℕ → Option ℤ) : s.Turned t e w' e' c c' →
      s.Noted t e.clientFd c' sources written completed →
      Stepped (.thread t (.call sys))
        { s.setWorker t w' with sources := sources, written := written, completed := completed }
  | updated (t : Fin n) (sys : Sys) (e : EventLoop) (w' : Worker) (e' : EventLoop)
      (socket : Socket) : s.loop t = some e → e.pc ≠ .ended →
      w'.phase.loop = some e' → e'.pc = .ended → s.Recorded e.clientFd →
      getConnectionByFd w'.queue = Function.update (s.records t) e.clientFd
        (some (freshConnection e.clientFd s.clock sys.mem)) →
      s.sockets e.clientFd = some socket →
      Stepped (.thread t (.call sys))
        { s.setWorker t w' with
          sockets := Function.update s.sockets e.clientFd (some { socket with armed := true })
          completed := s.complete t e.clientFd }
  | dequeued (t : Fin n) (sys : Sys) (e : EventLoop) (w' : Worker) (e' : EventLoop) :
      s.loop t = some e → e.pc ≠ .ended → w'.phase.loop = some e' → e'.pc = .ended →
      getConnectionByFd w'.queue = Function.update (s.records t) e.clientFd none →
      Stepped (.thread t (.call sys))
        { s.setWorker t w' with sockets := Function.update s.sockets e.clientFd none }

end Views

section Cases

variable {n : ℕ} {options : Options} {s s' : System n}

theorem System.tick_inv {now : ℤ} (h : SystemStep options s (.tick now) s') :
    s.clock ≤ now ∧ s' = { s with clock := now } := by
  unfold SystemStep System.next at h
  simp only at h
  split at h
  · exact ⟨‹_›, (Option.some.inj h).symm⟩
  · cases h

theorem System.next_inv {t : Fin n} {a : WorkerAction}
    (h : SystemStep options s (.thread t a) s') :
    s.Answers t a ∧ ∃ w' effects, (s.workers t).step options a = some (w', effects) ∧
      effects.foldlM (System.perform t) ((s.enter t a).setWorker t w') = some s' := by
  unfold SystemStep System.next at h
  simp only at h
  by_cases hanswers : s.Answers t a
  · rw [if_pos hanswers] at h
    obtain ⟨⟨w', effects⟩, hstep, h⟩ := Option.bind_eq_some_iff.mp h
    exact ⟨hanswers, w', effects, hstep, h⟩
  · rw [if_neg hanswers] at h
    cases h

theorem System.Answers.timely {t : Fin n} {a : WorkerAction} (h : s.Answers t a) (hs : s.Sound) :
    a.Timely s.clock := by
  refine ⟨h.1.ge, ?_⟩
  cases a with
  | epollWait events =>
    intro event he fd hfd
    refine hs.clients fd fun hnone => ?_
    have harmed := h.2.2 event he fd hfd
    rw [s.connection_eq_none.mp hnone] at harmed
    cases harmed
  | _ => trivial

theorem System.disarm_connection (events : List Event) (fd : ℕ) :
    (s.disarm events fd).map Socket.incarnation = s.connection fd := by
  simp [System.disarm, System.connection, Function.comp_def]

theorem System.turned_noted {t : Fin n} {sys : Sys} {fd : ℕ} {w' : Worker}
    {c' : QueueConnectionElementType} {effects : List Effect} (heffects : TurnEffects sys c' effects)
    (h : (effects.map fun effect => (fd, effect)).foldlM (System.perform t) (s.setWorker t w') =
      some s') :
    ∃ sources written completed, s.Noted t fd c' sources written completed ∧
      s' = { s.setWorker t w' with
        sources := sources, written := written, completed := completed } := by
  cases heffects with
  | silent =>
    obtain rfl := Option.some.inj h
    exact ⟨_, _, _, .silent, rfl⟩
  | received bytes hdata =>
    obtain ⟨s₁, hperform, h⟩ := Option.bind_eq_some_iff.mp h
    obtain ⟨socket, hsocket, rfl⟩ := Option.map_eq_some_iff.mp hperform
    obtain rfl := Option.some.inj h
    exact ⟨_, _, _, .received socket.incarnation (s.connection_of_socket hsocket), rfl⟩
  | sent bytes hcount =>
    obtain ⟨s₁, hperform, h⟩ := Option.bind_eq_some_iff.mp h
    obtain ⟨socket, hsocket, rfl⟩ := Option.map_eq_some_iff.mp hperform
    obtain rfl := Option.some.inj h
    exact ⟨_, _, _, .sent socket.incarnation (s.connection_of_socket hsocket), rfl⟩
  | logged hstate =>
    obtain rfl := Option.some.inj h
    exact ⟨_, _, _, .logged hstate, rfl⟩

/-- **The cases of a step of the system.** -/
theorem System.step_cases {a : SystemAction n} (hs : s.Sound) (h : SystemStep options s a s') :
    s.Stepped a s' := by
  cases a with
  | tick now =>
    obtain ⟨hle, rfl⟩ := System.tick_inv h
    exact .tick now hle
  | thread t a =>
    obtain ⟨hanswers, w', effects, hstep, hperform⟩ := System.next_inv h
    obtain ⟨hs', hmoved⟩ := Worker.step_spec (hs.workers t) (hanswers.timely hs) hstep
    cases hmoved with
    | rested a w' hrests htakes =>
      obtain rfl := Option.some.inj hperform
      cases a with
      | epollWait events => exact .rested t _ w' _ hrests (s.disarm_connection events)
      | accept fd =>
        obtain ⟨-, h0, hnone⟩ := hanswers
        refine .accepted t fd w' hrests h0 (s.connection_eq_none.mpr ?_)
        exact Option.isNone_iff_eq_none.mp hnone
      | nextEvent now mem =>
        have henter : s.enter t (.nextEvent now mem) = s := by
          simp only [System.enter, htakes]
        rw [henter]
        exact .rested t _ w' _ hrests fun fd => rfl
      | _ => exact .rested t _ w' _ hrests fun fd => rfl
    | swept now fd c w' hp hp' hexpired hc hold hm =>
      obtain rfl := Option.some.inj hperform
      exact .swept t now fd c w' hp hp' hexpired hc hold hm
    | taken now mem fd slot w' htakes hloop hfd hloop' hm =>
      have henter : s.enter t (.nextEvent now mem) =
          { s with
            sources := Function.update s.sources t []
            heard := Function.update s.heard fd true } := by
        simp only [System.enter, htakes]
      rw [henter] at hperform
      obtain rfl := Option.some.inj hperform
      exact .taken t now mem fd slot w' hloop hloop' hm
    | handled sys e e' w' hloop hpc hloop' hhandled =>
      have hnow : sys.now = s.clock := hanswers.1
      have hrecord := (hs.workers t).record hloop hpc
      cases hhandled with
      | turned pc effects hm hidx hsame hne hopen hclose heffects =>
        rw [e.goto_newEffects] at hperform
        obtain ⟨sources, written, completed, hnoted, rfl⟩ := System.turned_noted heffects hperform
        have hturned : s.Turned t e w' (e.goto pc effects) _ _ :=
          ⟨hloop, hloop', rfl, hpc, hrecord, hm, hsame, hopen, hclose⟩
        exact .turned t sys e w' _ _ _ sources written completed hturned hnoted
      | updated hm =>
        rw [e.goto_newEffects] at hperform
        obtain ⟨s₁, hrearmed, hperform⟩ := Option.bind_eq_some_iff.mp hperform
        obtain ⟨socket, hsocket, rfl⟩ := Option.map_eq_some_iff.mp hrearmed
        obtain rfl := Option.some.inj hperform
        have hrecorded : s.Recorded e.clientFd :=
          s.recorded_iff.mpr ⟨t, fun hnone => by cases hnone.symm.trans hrecord⟩
        exact .updated t sys e w' _ socket hloop hpc hloop' rfl hrecorded (hnow ▸ hm) hsocket
      | dequeued hm hstate =>
        rw [e.goto_newEffects] at hperform
        obtain rfl := Option.some.inj hperform
        exact .dequeued t sys e w' _ hloop hpc hloop' rfl hm

theorem System.perform_workers {t : Fin n} {effect : ℕ × Effect}
    (h : s.perform t effect = some s') : s'.clock = s.clock ∧ s'.workers = s.workers := by
  obtain ⟨fd, effect⟩ := effect
  cases effect with
  | logged =>
    obtain rfl := Option.some.inj h
    exact ⟨rfl, rfl⟩
  | closed =>
    obtain rfl := Option.some.inj h
    exact ⟨rfl, rfl⟩
  | _ =>
    obtain ⟨socket, hsocket, rfl⟩ := Option.map_eq_some_iff.mp h
    exact ⟨rfl, rfl⟩

theorem System.performAll_workers {t : Fin n} {effects : List (ℕ × Effect)}
    (h : effects.foldlM (System.perform t) s = some s') :
    s'.clock = s.clock ∧ s'.workers = s.workers := by
  induction effects generalizing s with
  | nil =>
    obtain rfl := Option.some.inj h
    exact ⟨rfl, rfl⟩
  | cons effect effects ih =>
    obtain ⟨s₁, hperform, h⟩ := Option.bind_eq_some_iff.mp h
    obtain ⟨hclock, hworkers⟩ := System.perform_workers hperform
    obtain ⟨hclock', hworkers'⟩ := ih h
    exact ⟨hclock'.trans hclock, hworkers'.trans hworkers⟩

/-- What a step of a thread does outside it leaves the clock and the threads. -/
theorem System.enter_workers (t : Fin n) (a : WorkerAction) :
    (s.enter t a).clock = s.clock ∧ (s.enter t a).workers = s.workers := by
  unfold System.enter
  split
  · exact ⟨rfl, rfl⟩
  · exact ⟨rfl, rfl⟩
  · split <;> exact ⟨rfl, rfl⟩

/-- A connection is open afterwards if it was open before, or if its descriptor has just been
accepted. -/
theorem System.Stepped.connection {a : SystemAction n} (h : s.Stepped a s') {fd incarnation : ℕ}
    (hopen : s'.connection fd = some incarnation) :
    s.connection fd = some incarnation ∨
      ∃ t, a = .thread t (.accept fd) ∧ fd ≠ 0 ∧ incarnation = s.accepts fd + 1 ∧
        s'.accepts fd = incarnation := by
  cases h with
  | rested t a w' sockets hrests hsockets => exact Or.inl ((hsockets fd).symm.trans hopen)
  | accepted t fd' w' hrests h0 hnone =>
    by_cases hfd : fd = fd'
    · subst hfd
      have hnew : incarnation = s.accepts fd + 1 := by
        simpa [System.connection, System.enter, System.setWorker] using hopen.symm
      exact Or.inr ⟨t, rfl, h0, hnew, (Function.update_self fd _ s.accepts).trans hnew.symm⟩
    · refine Or.inl ?_
      simpa [System.connection, System.enter, System.setWorker, Function.update_of_ne hfd] using hopen
  | swept t now fd' c w' hp hp' hexpired hc hold hm =>
    exact Or.inl (System.connection_closed (s := s) rfl hopen).2
  | updated t sys e w' e' socket hloop hpc hloop' hpc' hrecorded hm hsocket =>
    exact Or.inl ((congrFun (System.connection_rearmed hsocket rfl) fd).symm.trans hopen)
  | dequeued t sys e w' e' hloop hpc hloop' hpc' hm =>
    exact Or.inl (System.connection_closed (s := s) rfl hopen).2
  | _ => exact Or.inl hopen

/-- A step of one thread leaves the others and what they have received. -/
theorem System.Stepped.others {a : SystemAction n} (h : s.Stepped a s') {u : Fin n}
    (hu : ∀ b, a ≠ .thread u b) : s'.workers u = s.workers u ∧ s'.sources u = s.sources u := by
  have hne : ∀ {t b}, a = .thread t b → u ≠ t := by
    rintro t b rfl rfl
    exact hu b rfl
  cases h with
  | tick now hle => exact ⟨rfl, rfl⟩
  | taken t now mem fd slot w' hloop hloop' hm =>
    exact ⟨Function.update_of_ne (hne rfl) _ _, Function.update_of_ne (hne rfl) _ _⟩
  | turned t sys e w' e' c c' sources written completed hturned hnoted =>
    refine ⟨Function.update_of_ne (hne rfl) _ _, ?_⟩
    cases hnoted with
    | received incarnation hopen => exact Function.update_of_ne (hne rfl) _ _
    | _ => rfl
  | _ => exact ⟨Function.update_of_ne (hne rfl) _ _, rfl⟩

/-- What a thread has received from in a loop that goes on is the connection open now, or it has
received from it before in the same loop. -/
theorem System.Stepped.sources {a : SystemAction n} (h : s.Stepped a s') {u : Fin n} {e : EventLoop}
    (he : s'.loop u = some e) (hpc : e.pc ≠ .ended) {incarnation : ℕ}
    (hk : incarnation ∈ s'.sources u) :
    s'.connection e.clientFd = some incarnation ∨
      ∃ e₀, s.loop u = some e₀ ∧ e₀.pc ≠ .ended ∧ e₀.clientFd = e.clientFd ∧
        incarnation ∈ s.sources u := by
  by_cases hu : ∃ b, a = .thread u b
  · obtain ⟨b, rfl⟩ := hu
    cases h with
    | rested t a w' sockets hrests hsockets =>
      cases hrests.loop.symm.trans ((s.loop_setWorker u w').symm.trans he)
    | accepted t fd w' hrests h0 hnone =>
      cases hrests.loop.symm.trans ((System.loop_setWorker _ u w').symm.trans he)
    | swept t now fd c w' hp hp' hexpired hc hold hm =>
      have he : w'.phase.loop = some e := (s.loop_setWorker u w').symm.trans he
      rw [hp'] at he
      cases he
    | taken t now mem fd slot w' hloop hloop' hm =>
      have hk : incarnation ∈ Function.update s.sources u [] u := hk
      rw [Function.update_self] at hk
      cases hk
    | turned t sys e₀ w' e' c c' sources written completed hturned hnoted =>
      obtain rfl := Option.some.inj
        (hturned.loop'.symm.trans ((s.loop_setWorker u w').symm.trans he))
      have hbefore : incarnation ∈ s.sources u → ∃ e₁, s.loop u = some e₁ ∧ e₁.pc ≠ .ended ∧
          e₁.clientFd = e'.clientFd ∧ incarnation ∈ s.sources u := fun hk =>
        ⟨e₀, hturned.loop, hturned.running, hturned.client.symm, hk⟩
      cases hnoted with
      | received incarnation₁ hopen =>
        have hk : incarnation ∈ Function.update s.sources u (incarnation₁ :: s.sources u) u := hk
        rw [Function.update_self] at hk
        rcases List.mem_cons.mp hk with rfl | hk
        · exact Or.inl (hturned.client ▸ hopen)
        · exact Or.inr (hbefore hk)
      | _ => exact Or.inr (hbefore hk)
    | updated t sys e₀ w' e' socket hloop hpc₀ hloop' hpc' hrecorded hm hsocket =>
      obtain rfl := Option.some.inj (hloop'.symm.trans ((s.loop_setWorker u w').symm.trans he))
      exact absurd hpc' hpc
    | dequeued t sys e₀ w' e' hloop hpc₀ hloop' hpc' hm =>
      obtain rfl := Option.some.inj (hloop'.symm.trans ((s.loop_setWorker u w').symm.trans he))
      exact absurd hpc' hpc
  · obtain ⟨hworkers, hsources⟩ := h.others (u := u) fun b hb => hu ⟨b, hb⟩
    rw [System.loop, hworkers] at he
    rw [hsources] at hk
    exact Or.inr ⟨e, he, hpc, rfl, hk⟩

/-- Time does not go back, and the numbers of incarnations only grow. -/
theorem System.Stepped.grows {a : SystemAction n} (h : s.Stepped a s') (fd : ℕ) :
    s.clock ≤ s'.clock ∧ s.accepts fd ≤ s'.accepts fd := by
  cases h with
  | tick now hle => exact ⟨hle, le_rfl⟩
  | accepted t fd' w' hrests h0 hnone =>
    refine ⟨le_rfl, ?_⟩
    show s.accepts fd ≤ Function.update s.accepts fd' (s.accepts fd' + 1) fd
    by_cases hfd : fd = fd'
    · rw [hfd, Function.update_self]
      exact Nat.le_succ _
    · rw [Function.update_of_ne hfd]
  | _ => exact ⟨le_rfl, le_rfl⟩

/-- **What every step keeps in order.** -/
theorem System.step_sound {a : SystemAction n} (hs : s.Sound) (h : SystemStep options s a s') :
    s'.Sound := by
  refine ⟨fun u => ?_, fun fd hopen => ?_⟩
  · cases a with
    | tick now =>
      cases System.step_cases hs h with
      | tick now hle => exact (hs.workers u).mono hle
    | thread t a =>
      obtain ⟨hanswers, w', effects, hstep, hperform⟩ := System.next_inv h
      obtain ⟨hs', -⟩ := Worker.step_spec (hs.workers t) (hanswers.timely hs) hstep
      obtain ⟨hclock, hworkers⟩ := System.performAll_workers hperform
      obtain ⟨hclock₀, hworkers₀⟩ := s.enter_workers t a
      rw [hclock, hworkers]
      show (Function.update (s.enter t a).workers t w' u).Sound (s.enter t a).clock
      rw [hclock₀, hworkers₀]
      by_cases hu : u = t
      · subst hu
        rw [Function.update_self]
        exact hanswers.1 ▸ hs'
      · rw [Function.update_of_ne hu]
        exact hs.workers u
  · obtain ⟨incarnation, hopen⟩ := Option.ne_none_iff_exists'.mp hopen
    rcases (System.step_cases hs h).connection hopen with hopen | ⟨t, -, h0, -, -⟩
    · exact hs.clients fd (by rw [hopen]; simp)
    · exact h0

theorem System.sound_init (n : ℕ) (clock : ℤ) : (System.init n clock).Sound where
  workers _ := Worker.sound_init clock
  clients _ h := absurd rfl h

end Cases

/-! ### Parts of runs at the site -/

/-- At the top of its loop, with no entry that is old enough for the sweep. -/
def goesToWait (now : ℤ) : List WorkerAction := [.readTime now, .sweep]

/-- The same with one entry that is old enough. -/
def sweepsAndWaits (now : ℤ) : List WorkerAction := [.readTime now, .sweep, .sweep]

def acceptsClient (now : ℤ) (fd : ℕ) : List WorkerAction :=
  [.epollWait [.server], .nextEvent now .zeroed, .accept fd, .acceptEnd, .nextEvent now .zeroed]

/-- The client asks for the index page on a connection to be kept; the response is made. -/
def receivesRequest (now : ℤ) (fd : ℕ) : List WorkerAction :=
  [.epollWait [.client fd true], .nextEvent now .zeroed, .call (localSys now),
    .call { localSys now with recv := .data indexPageRequest }, .call (localSys now)]

def sendsResponse (now : ℤ) : List WorkerAction :=
  [.call { localSys now with send := .sent 1024 }, .call (localSys now),
    .call { localSys now with send := .sent 5 }, .call (localSys now), .endEvent,
    .nextEvent now .zeroed]

def serves (now : ℤ) (fd : ℕ) : List WorkerAction :=
  goesToWait now ++ receivesRequest now fd ++ sendsResponse now

end UbServer

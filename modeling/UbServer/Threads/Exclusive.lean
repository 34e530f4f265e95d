import UbServer.Threads.Incarnation
import UbServer.Threads.Timeout

/-!
# One thread for each client

What goes wrong between the threads goes wrong because a client's events are reported to one thread
after another. Along a run in which `epoll_wait` reports a client to no thread while another one has a
record of its descriptor or an event of it to come, no two threads ever have to do with one client.

* `System.Holds`: a thread has to do with a descriptor.
* `System.Affine`: the condition on a step.
* `System.Exclusive`: what such steps keep.
* `oneThread_safe`: a server with a single thread.
-/

namespace UbServer

open Runs QueueConnectionsType

/-! ### The clients a thread is at -/

/-- The client of the loop while it goes on, and those of the events to come. -/
def Phase.clients : Phase → List ℕ
  | .handling e events =>
    (if e.pc = .ended then [] else [e.clientFd]) ++ events.filterMap Event.fd
  | phase => phase.pending.filterMap Event.fd

theorem Phase.clients_handling (e : EventLoop) (events : List Event) :
    (Phase.handling e events).clients =
      (if e.pc = .ended then [] else [e.clientFd]) ++ events.filterMap Event.fd := rfl

section Clients

variable {options : Options} {w w' : Worker} {a : WorkerAction} {effects : List (ℕ × Effect)}
  {e e' : EventLoop} {phase : Phase}

theorem Phase.mem_clients_of_loop (h : phase.loop = some e) (hpc : e.pc ≠ .ended) :
    e.clientFd ∈ phase.clients := by
  cases phase with
  | handling e₀ events =>
    obtain rfl := Option.some.inj h
    rw [Phase.clients_handling, if_neg hpc]
    exact List.mem_append_left _ (List.mem_singleton_self _)
  | _ => cases h

theorem EventLoop.Stepped.clientFd {q q' : QueueConnectionsType} {sys : Sys}
    (h : e.Stepped q sys q' e') : e'.clientFd = e.clientFd := by
  cases h <;> rfl

theorem Phase.clients_step (events : List Event) (hclient : e'.clientFd = e.clientFd)
    (hpc : e.pc ≠ .ended) :
    (Phase.handling e events).clients = e.clientFd :: events.filterMap Event.fd ∧
      (Phase.handling e' events).clients =
        if e'.pc = .ended then events.filterMap Event.fd
        else e.clientFd :: events.filterMap Event.fd := by
  rw [Phase.clients_handling, Phase.clients_handling, if_neg hpc, hclient]
  refine ⟨rfl, ?_⟩
  split <;> rfl

/-- **The clients of a thread.** Only `epoll_wait` brings new ones. -/
theorem Worker.Stepped.clients (h : w.Stepped options a w' effects) :
    (∃ events, a = .epollWait events ∧ w'.phase.clients = events.filterMap Event.fd) ∨
      w'.phase.clients <:+ w.phase.clients := by
  cases h with
  | epollWait events hp hlen => exact Or.inl ⟨events, rfl, rfl⟩
  | client now mem fd events queue slot hp hget =>
    refine Or.inr ?_
    rw [hp]
    exact List.suffix_rfl
  | skipped now mem fd events hp =>
    refine Or.inr ?_
    rw [hp]
    exact List.suffix_cons fd _
  | call sys e e' events queue hp hstep =>
    refine Or.inr ?_
    obtain ⟨hclients, hclients'⟩ := Phase.clients_step events
      (EventLoop.step_cases hstep).clientFd (EventLoop.step_ended hstep)
    rw [hp, hclients, hclients']
    split
    · exact List.suffix_cons _ _
    · exact List.suffix_rfl
  | endEvent e events hp hended =>
    refine Or.inr ?_
    rw [hp, Phase.clients_handling, if_pos hended]
    exact List.suffix_rfl
  | server now mem events hp =>
    refine Or.inr ?_
    rw [hp]
    exact List.suffix_rfl
  | acceptEnd events hp =>
    refine Or.inr ?_
    rw [hp]
    exact List.suffix_rfl
  | sweepClose now fd hp hexpired hexists => exact Or.inr List.suffix_rfl
  | sweepStuck now fd hp hexpired hexists => exact Or.inr List.suffix_rfl
  | accept fd events hp => exact Or.inr List.suffix_rfl
  | readTime now hp => exact Or.inr (List.nil_suffix)
  | sweepEnd now hp hexpired => exact Or.inr (List.nil_suffix)
  | batchEnd now mem hp => exact Or.inr (List.nil_suffix)

theorem Worker.Stepped.clients_of_ended (h : w.Stepped options a w' effects)
    (hloop : w.phase.loop = some e) (hpc : e.pc ≠ .ended) (hloop' : w'.phase.loop = some e')
    (hpc' : e'.pc = .ended) : w.phase.clients = e.clientFd :: w'.phase.clients := by
  cases h with
  | call sys e₀ e₁ events queue hp hstep =>
    rw [hp] at hloop
    obtain rfl := Option.some.inj hloop
    obtain rfl := Option.some.inj hloop'
    obtain ⟨hclients, hclients'⟩ := Phase.clients_step events
      (EventLoop.step_cases hstep).clientFd hpc
    rw [hp, hclients, hclients', if_pos hpc']
  | client now mem fd events queue slot hp hget =>
    rw [hp] at hloop
    cases hloop
  | sweepClose now fd hp hexpired hexists =>
    rw [hp] at hloop
    cases hloop
  | sweepStuck now fd hp hexpired hexists =>
    rw [hp] at hloop
    cases hloop
  | accept fd events hp =>
    rw [hp] at hloop
    cases hloop
  | _ => cases hloop'

end Clients

/-! ### Who has to do with a descriptor -/

section Holds

variable {n : ℕ} {options : Options} {s s' : System n} {a : SystemAction n}

/-- The thread has a record of the descriptor, or an event of it to handle. -/
def System.Holds (s : System n) (t : Fin n) (fd : ℕ) : Prop :=
  s.records t fd ≠ none ∨ fd ∈ (s.workers t).phase.clients

/-- `epoll_wait` reports no client to a thread of which another thread has a record or an event to
handle. -/
def System.Affine (s : System n) : SystemAction n → Prop
  | .thread t (.epollWait events) =>
    ∀ fd ∈ events.filterMap Event.fd, ∀ u, s.Holds u fd → u = t
  | _ => True

/-- A client is in the hands of one thread at most, its descriptor is open, and no thread is to handle
two events of it. -/
structure System.Exclusive (s : System n) : Prop where
  unique : ∀ t u fd, s.Holds t fd → s.Holds u fd → t = u
  opened : ∀ t fd, s.Holds t fd → s.connection fd ≠ none
  once : ∀ t, (s.workers t).phase.clients.Nodup

theorem System.step_workers {t : Fin n} {b : WorkerAction}
    (h : SystemStep options s (.thread t b) s') :
    ∃ w' effects, (s.workers t).step options b = some (w', effects) ∧
      effects.foldlM (System.perform t) ((s.enter t b).setWorker t w') = some s' ∧
      s'.workers = Function.update s.workers t w' := by
  obtain ⟨-, w', effects, hstep, hperform⟩ := System.next_inv h
  refine ⟨w', effects, hstep, hperform, ?_⟩
  rw [(System.performAll_workers hperform).2]
  show Function.update (s.enter t b).workers t w' = _
  rw [(s.enter_workers t b).2]

/-- What `epoll_wait` reports is open. -/
theorem System.reported_open {t : Fin n} {events : List Event} {fd : ℕ}
    (h : SystemStep options s (.thread t (.epollWait events)) s')
    (hfd : fd ∈ events.filterMap Event.fd) : s.connection fd ≠ none := by
  obtain ⟨⟨-, -, harmed⟩, -⟩ := System.next_inv h
  obtain ⟨event, hevent, hevent'⟩ := List.mem_filterMap.mp hfd
  intro hnone
  have harmed := harmed event hevent fd hevent'
  rw [s.connection_eq_none.mp hnone] at harmed
  cases harmed

theorem System.step_clients (h : SystemStep options s a s') (u : Fin n) :
    (∃ events, a = .thread u (.epollWait events) ∧
      (s'.workers u).phase.clients = events.filterMap Event.fd) ∨
    (s'.workers u).phase.clients <:+ (s.workers u).phase.clients := by
  cases a with
  | tick now =>
    obtain ⟨-, rfl⟩ := System.tick_inv h
    exact Or.inr List.suffix_rfl
  | thread t b =>
    obtain ⟨w', effects, hstep, -, hworkers⟩ := System.step_workers h
    rw [hworkers]
    by_cases hu : u = t
    · subst hu
      rw [Function.update_self]
      rcases (Worker.step_cases hstep).clients with ⟨events, rfl, hclients⟩ | hclients
      · exact Or.inl ⟨events, rfl, hclients⟩
      · exact Or.inr hclients
    · rw [Function.update_of_ne hu]
      exact Or.inr List.suffix_rfl

theorem System.step_holds (hs : s.Sound) (h : SystemStep options s a s') {u : Fin n} {fd : ℕ}
    (hheld : s'.Holds u fd) :
    s.Holds u fd ∨ ∃ events, a = .thread u (.epollWait events) ∧
      fd ∈ events.filterMap Event.fd := by
  have hclients : fd ∈ (s'.workers u).phase.clients → s.Holds u fd ∨
      ∃ events, a = .thread u (.epollWait events) ∧ fd ∈ events.filterMap Event.fd := by
    intro hfd
    rcases System.step_clients h u with ⟨events, ha, hnew⟩ | hold
    · exact Or.inr ⟨events, ha, hnew ▸ hfd⟩
    · exact Or.inl (Or.inr (hold.subset hfd))
  rcases hheld with hrecord | hfd
  · -- the loop that a record is written in is that of a client the thread is at
    cases System.step_cases hs h with
    | tick now hle => exact Or.inl (Or.inl hrecord)
    | rested t b w' sockets hrests hsockets =>
      rw [System.records_rests (s := s) rfl hrests] at hrecord
      exact Or.inl (Or.inl hrecord)
    | accepted t fd' w' hrests h0 hnone =>
      rw [System.records_rests (s := s) rfl hrests] at hrecord
      exact Or.inl (Or.inl hrecord)
    | swept t now fd' c w' hp hp' hexpired hc hold hm =>
      rw [System.records_step (s := s) rfl hm] at hrecord
      split at hrecord
      · exact absurd rfl hrecord
      · exact Or.inl (Or.inl hrecord)
    | taken t now mem fd' slot w' hloop hloop' hm =>
      rw [System.records_step (s := s) rfl hm] at hrecord
      split at hrecord
      · rename_i htouched
        obtain ⟨rfl, rfl⟩ := htouched
        refine hclients ?_
        refine Phase.mem_clients_of_loop (e := .start fd slot) ?_ nofun
        exact (s.loop_setWorker u w').trans hloop'
      · exact Or.inl (Or.inl hrecord)
    | turned t sys e w' e' c c' sources written completed hturned hnoted =>
      rw [System.records_step (s := s) rfl hturned.records] at hrecord
      split at hrecord
      · rename_i htouched
        obtain ⟨rfl, rfl⟩ := htouched
        exact Or.inl (Or.inr (Phase.mem_clients_of_loop hturned.loop hturned.running))
      · exact Or.inl (Or.inl hrecord)
    | updated t sys e w' e' socket hloop hpc hloop' hpc' hrecorded hm hsocket =>
      rw [System.records_step (s := s) rfl hm] at hrecord
      split at hrecord
      · rename_i htouched
        obtain ⟨rfl, rfl⟩ := htouched
        exact Or.inl (Or.inr (Phase.mem_clients_of_loop hloop hpc))
      · exact Or.inl (Or.inl hrecord)
    | dequeued t sys e w' e' hloop hpc hloop' hpc' hm =>
      rw [System.records_step (s := s) rfl hm] at hrecord
      split at hrecord
      · exact absurd rfl hrecord
      · exact Or.inl (Or.inl hrecord)
  · exact hclients hfd

/-- A descriptor that a step closes is in the hands of its thread before, and of no thread after
it. -/
theorem System.Exclusive.step_open (hs : s.Sound) (h : SystemStep options s a s')
    (hexclusive : s.Exclusive) {u : Fin n} {fd : ℕ} (hheld : s.Holds u fd) (hheld' : s'.Holds u fd) :
    s'.connection fd ≠ none := by
  have hopen := hexclusive.opened u fd hheld
  have hstep := h
  cases System.step_cases hs h with
  | rested t b w' sockets hrests hsockets => exact fun hnone => hopen ((hsockets fd).symm.trans hnone)
  | accepted t fd' w' hrests h0 hnone =>
    intro hclosed
    by_cases hfd : fd = fd'
    · exact hopen (hfd ▸ hnone)
    · refine hopen ?_
      simpa [System.connection, System.enter, System.setWorker, Function.update_of_ne hfd] using hclosed
  | swept t now fd' c w' hp hp' hexpired hc hold hm =>
    by_cases hfd : fd = fd'
    · subst hfd
      obtain rfl := hexclusive.unique u t fd hheld (Or.inl (by rw [hc]; exact Option.some_ne_none c))
      rcases hheld' with hrecord | hclient
      · rw [System.records_step (s := s) rfl hm, if_pos ⟨rfl, rfl⟩] at hrecord
        exact absurd rfl hrecord
      · have hclient : fd ∈ (Function.update s.workers u w' u).phase.clients := hclient
        rw [Function.update_self, hp'] at hclient
        cases hclient
    · exact fun hclosed => hopen (by
        simpa [System.connection, System.setWorker, Function.update_of_ne hfd] using hclosed)
  | updated t sys e w' e' socket hloop hpc hloop' hpc' hrecorded hm hsocket =>
    rw [System.connection_rearmed hsocket rfl]
    exact hopen
  | dequeued t sys e w' e' hloop hpc hloop' hpc' hm =>
    by_cases hfd : fd = e.clientFd
    · subst hfd
      obtain rfl := hexclusive.unique u t _ hheld (Or.inr (Phase.mem_clients_of_loop hloop hpc))
      obtain ⟨w₁, effects, hstepped, -, hworkers⟩ := System.step_workers hstep
      have hw : w₁ = w' := by
        have heq : Function.update s.workers u w' u = Function.update s.workers u w₁ u :=
          congrFun hworkers u
        rw [Function.update_self, Function.update_self] at heq
        exact heq.symm
      subst hw
      have hclients := (Worker.step_cases hstepped).clients_of_ended hloop hpc hloop' hpc'
      have honce := hexclusive.once u
      rw [hclients] at honce
      rcases hheld' with hrecord | hclient
      · rw [System.records_step (s := s) rfl hm, if_pos ⟨rfl, rfl⟩] at hrecord
        exact absurd rfl hrecord
      · have hclient : e.clientFd ∈ (Function.update s.workers u w₁ u).phase.clients := hclient
        rw [Function.update_self] at hclient
        exact absurd hclient (List.nodup_cons.mp honce).1
    · exact fun hclosed => hopen (by
        simpa [System.connection, System.setWorker, Function.update_of_ne hfd] using hclosed)
  | _ => exact hopen

/-- **What every step keeps that reports no client to two threads.** -/
theorem System.exclusive_step (hs : s.Sound) (h : SystemStep options s a s') (hg : s.Affine a)
    (hexclusive : s.Exclusive) : s'.Exclusive := by
  refine ⟨fun t u fd ht hu => ?_, fun t fd ht => ?_, fun t => ?_⟩
  · rcases System.step_holds hs h ht with ht | ⟨events, rfl, hfd⟩
    · rcases System.step_holds hs h hu with hu | ⟨events, rfl, hfd⟩
      · exact hexclusive.unique t u fd ht hu
      · exact hg fd hfd t ht
    · rcases System.step_holds hs h hu with hu | ⟨events', ha, hfd'⟩
      · exact (hg fd hfd u hu).symm
      · obtain ⟨rfl, -⟩ := SystemAction.thread.inj ha
        rfl
  · rcases System.step_holds hs h ht with hold | ⟨events, rfl, hfd⟩
    · exact hexclusive.step_open hs h hold ht
    · have hopen := System.reported_open h hfd
      cases System.step_cases hs h with
      | rested t b w' sockets hrests hsockets =>
        exact fun hnone => hopen ((hsockets fd).symm.trans hnone)
  · rcases System.step_clients h t with ⟨events, rfl, hclients⟩ | hclients
    · obtain ⟨⟨-, hnodup, -⟩, -⟩ := System.next_inv h
      rw [hclients]
      exact hnodup
    · exact (hexclusive.once t).sublist hclients.sublist

theorem System.exclusive_init (n : ℕ) (clock : ℤ) : (System.init n clock).Exclusive := by
  have hholds : ∀ t fd, ¬ (System.init n clock).Holds t fd := by
    rintro t fd (hrecord | hclient)
    · exact hrecord rfl
    · cases hclient
  exact ⟨fun t u fd ht => absurd ht (hholds t fd), fun t fd ht => absurd ht (hholds t fd),
    fun t => List.nodup_nil⟩

/-- No thread is in the loop of a client whose number `accept` hands out. -/
theorem System.Exclusive.quietAccept (h : SystemStep options s a s') (hexclusive : s.Exclusive) :
    s.QuietAccept a := by
  match a with
  | .thread t (.accept fd) =>
    obtain ⟨⟨-, -, hnone⟩, -⟩ := System.next_inv h
    rintro u e he rfl hpc
    refine absurd (s.connection_eq_none.mpr (Option.isNone_iff_eq_none.mp hnone)) ?_
    exact hexclusive.opened u _ (Or.inr (Phase.mem_clients_of_loop he hpc))
  | .tick _ | .thread _ (.readTime _) | .thread _ .sweep | .thread _ (.epollWait _) |
    .thread _ (.nextEvent ..) | .thread _ .acceptEnd | .thread _ (.call _) |
    .thread _ .endEvent => trivial

theorem System.Exclusive.sweepsOldest (hs : s.Sound) (hexclusive : s.Exclusive) :
    s.SweepsOldest a := by
  unfold System.SweepsOldest
  split
  · rename_i t
    split
    · intro fd hfd u hu c hc
      obtain ⟨c', hc', -⟩ := (hs.workers t).timed.expired hfd
      refine absurd (hexclusive.unique u t fd (Or.inl ?_) (Or.inl ?_)) hu
      · rw [show s.records u fd = some c from hc]
        exact Option.some_ne_none c
      · rw [show s.records t fd = some c' from hc']
        exact Option.some_ne_none c'
    · trivial
  · trivial

/-- The effects of a step are on descriptors that the thread has to do with. -/
theorem System.effects_held (hs : s.Sound) {t : Fin n} {b : WorkerAction} {w' : Worker}
    {effects : List (ℕ × Effect)} (hanswers : s.Answers t b)
    (hstep : (s.workers t).step options b = some (w', effects)) :
    ∀ effect ∈ effects, s.Holds t effect.1 := by
  obtain ⟨-, hmoved⟩ := Worker.step_spec (hs.workers t) (hanswers.timely hs) hstep
  cases hmoved with
  | rested b w' hrests htakes => exact fun effect he => absurd he List.not_mem_nil
  | taken now mem fd slot w' htakes hloop hfd hloop' hm =>
    exact fun effect he => absurd he List.not_mem_nil
  | swept now fd c w' hp hp' hexpired hc hold hm =>
    intro effect he
    obtain rfl := List.mem_singleton.mp he
    refine Or.inl ?_
    rw [show s.records t fd = some c from hc]
    nofun
  | handled sys e e' w' hloop hpc hloop' hhandled =>
    intro effect he
    obtain ⟨effect, -, rfl⟩ := List.mem_map.mp he
    exact Or.inr (Phase.mem_clients_of_loop hloop hpc)

/-- An effect on a descriptor that is open can happen, and what is open stays so unless it is
closed. -/
theorem System.perform_isSome {t : Fin n} {effect : ℕ × Effect}
    (hopen : (s.sockets effect.1).isSome) : (s.perform t effect).isSome := by
  obtain ⟨fd, effect⟩ := effect
  cases effect with
  | logged | closed => rfl
  | _ =>
    unfold System.perform
    rw [Option.isSome_map]
    exact hopen

theorem System.perform_sockets {t : Fin n} {effect : ℕ × Effect} (h : s.perform t effect = some s')
    (fd : ℕ) : (s'.sockets fd).isSome ↔ (s.sockets fd).isSome ∧ (fd, Effect.closed) ≠ effect := by
  obtain ⟨fd', effect⟩ := effect
  cases effect with
  | received bytes | sent bytes =>
    obtain ⟨socket, -, rfl⟩ := Option.map_eq_some_iff.mp h
    simp
  | logged =>
    obtain rfl := Option.some.inj h
    simp
  | rearmed =>
    obtain ⟨socket, hsocket, rfl⟩ := Option.map_eq_some_iff.mp h
    by_cases hfd : fd = fd'
    · simp [hfd, hsocket]
    · simp [Function.update_of_ne hfd]
  | closed =>
    obtain rfl := Option.some.inj h
    by_cases hfd : fd = fd'
    · simp [hfd]
    · simp [hfd]

theorem System.performAll_sockets {t : Fin n} {effects : List (ℕ × Effect)}
    (h : effects.foldlM (System.perform t) s = some s') (fd : ℕ) :
    (s'.sockets fd).isSome ↔ (s.sockets fd).isSome ∧ (fd, Effect.closed) ∉ effects := by
  induction effects generalizing s with
  | nil =>
    obtain rfl := Option.some.inj h
    simp
  | cons effect effects ih =>
    obtain ⟨s₁, hs₁, h⟩ := Option.bind_eq_some_iff.mp h
    rw [ih h, System.perform_sockets hs₁, List.mem_cons, not_or, and_assoc]

theorem System.performAll_isSome {t : Fin n} {effects : List (ℕ × Effect)}
    (hopen : ∀ effect ∈ effects, (s.sockets effect.1).isSome)
    (hlast : ∀ effect ∈ effects.dropLast, effect.2 ≠ .closed) :
    (effects.foldlM (System.perform t) s).isSome := by
  induction effects generalizing s with
  | nil => rfl
  | cons effect effects ih =>
    obtain ⟨s₁, hs₁⟩ := Option.isSome_iff_exists.mp
      (System.perform_isSome (t := t) (hopen effect List.mem_cons_self))
    rw [List.foldlM_cons, hs₁]
    cases effects with
    | nil => rfl
    | cons effect₁ effects =>
      have hne : effect.2 ≠ .closed := hlast effect List.mem_cons_self
      refine ih (fun effect' he => (System.perform_sockets hs₁ _).mpr
          ⟨hopen effect' (List.mem_cons_of_mem _ he), fun heq => hne (heq ▸ rfl)⟩)
        fun effect' he => hlast effect' (List.mem_cons_of_mem _ he)

theorem Worker.Moved.closes_last {w w' : Worker} {b : WorkerAction} {effects : List (ℕ × Effect)}
    (h : w.Moved b w' effects) : ∀ effect ∈ effects.dropLast, effect.2 ≠ .closed := by
  cases h with
  | handled sys e e' w' hloop hpc hloop' hhandled =>
    cases hhandled with
    | turned pc effects hm hidx hsame hne hopen hclose heffects =>
      rw [e.goto_newEffects]
      cases heffects with
      | _ => exact fun effect he => absurd he List.not_mem_nil
    | updated hm =>
      rw [e.goto_newEffects]
      intro effect he
      obtain rfl := List.mem_singleton.mp he
      nofun
    | dequeued hm hstate =>
      rw [e.goto_newEffects]
      exact fun effect he => absurd he List.not_mem_nil
  | _ => exact fun effect he => absurd he List.not_mem_nil

/-- A step with effects on descriptors opens, disarms and takes up nothing. -/
theorem System.enter_sockets {t : Fin n} {w w' : Worker} {b : WorkerAction}
    {effects : List (ℕ × Effect)} (h : w.Moved b w' effects) (hne : effects ≠ []) :
    (s.enter t b).sockets = s.sockets := by
  cases h with
  | rested | taken => exact absurd rfl hne
  | swept | handled => rfl

theorem System.enter_open (t : Fin n) (b : WorkerAction) (fd : ℕ) :
    ((s.enter t b).sockets fd).isSome ↔ (s.sockets fd).isSome ∨ b = .accept fd := by
  cases b with
  | epollWait events => simp [System.enter, System.disarm]
  | accept fd' =>
    by_cases hfd : fd = fd'
    · simp [System.enter, hfd]
    · simp [System.enter, Function.update_of_ne hfd, Ne.symm hfd]
  | _ =>
    unfold System.enter
    simp only
    split <;> simp

/-- **What is open after a step of a thread**: what was open or is accepted, and is not closed. -/
theorem System.step_open {t : Fin n} {b : WorkerAction} {w' : Worker} {effects : List (ℕ × Effect)}
    (h : SystemStep options s (.thread t b) s')
    (hstep : (s.workers t).step options b = some (w', effects)) (fd : ℕ) :
    (s'.sockets fd).isSome ↔
      ((s.sockets fd).isSome ∨ b = .accept fd) ∧ (fd, Effect.closed) ∉ effects := by
  obtain ⟨-, w₁, effects₁, hstep₁, hperform⟩ := System.next_inv h
  obtain ⟨rfl, rfl⟩ := Prod.mk.inj (Option.some.inj (hstep.symm.trans hstep₁))
  rw [System.performAll_sockets hperform]
  exact and_congr_left' (System.enter_open t b fd)

/-- No `epoll_ctl` fails: what the thread can do is a step. -/
theorem System.Exclusive.next_isSome (hs : s.Sound) (hexclusive : s.Exclusive) {t : Fin n}
    {b : WorkerAction} (hanswers : s.Answers t b)
    (hstep : ((s.workers t).step options b).isSome) :
    (s.next options (.thread t b)).isSome := by
  obtain ⟨⟨w', effects⟩, hstep⟩ := Option.isSome_iff_exists.mp hstep
  obtain ⟨-, hmoved⟩ := Worker.step_spec (hs.workers t) (hanswers.timely hs) hstep
  have hopen : ∀ effect ∈ effects, (s.sockets effect.1).isSome := fun effect he => by
    have hconnection := hexclusive.opened t _ (System.effects_held hs hanswers hstep effect he)
    rw [Option.isSome_iff_ne_none]
    exact fun hnone => hconnection (s.connection_eq_none.mpr hnone)
  unfold System.next
  simp only
  rw [if_pos hanswers, hstep, Option.bind_some]
  by_cases hne : effects = []
  · rw [hne]
    rfl
  · refine System.performAll_isSome (fun effect he => ?_) hmoved.closes_last
    show ((s.enter t b).sockets effect.1).isSome
    rw [System.enter_sockets hmoved hne]
    exact hopen effect he

/-- In order, exclusive, and with the ledger as it should be. -/
structure System.Safe (s : System n) : Prop where
  exclusive : s.Exclusive
  owned : s.Owned
  kept : s.Kept

theorem System.safe_step (h : SystemStep options s a s') (hg : s.Affine a) (hsafe : s.Safe) :
    s'.Safe :=
  ⟨System.exclusive_step hsafe.kept.sound h hg hsafe.exclusive,
    (System.owned_step h (hsafe.exclusive.quietAccept h) ⟨hsafe.kept.sound, hsafe.owned⟩).2,
    System.kept_step h hsafe.kept⟩

theorem System.safe_init (n : ℕ) (clock : ℤ) : (System.init n clock).Safe :=
  ⟨System.exclusive_init n clock, System.owned_init n clock, System.kept_init n clock⟩

theorem System.Safe.closesIdle (h : SystemStep options s a s') (hsafe : s.Safe) :
    SweepClosesIdle ⟨s, a, s'⟩ :=
  System.sweepsOldest_idle h (hsafe.exclusive.sweepsOldest hsafe.kept.sound) hsafe.kept

end Holds

theorem System.affine_of_single (s : System 1) (a : SystemAction 1) : s.Affine a := by
  unfold System.Affine
  split
  · exact fun fd hfd u hu => Subsingleton.elim u _
  · trivial

/-- **A server with a single thread.** In every run, whatever the clients and the clock do, every part
of a response goes to the connection that the request came from, a sweep closes only what has completed
no request for the time of the timeout, and each record and each event to come is of a connection that
is open. -/
theorem oneThread_safe {options : Options} {clock : ℤ}
    {h : List (Transition (System 1) (SystemAction 1))} {s : System 1}
    (hr : Run (SystemStep options) (.init 1 clock) h s) :
    (∀ w ∈ s.written, ∀ incarnation ∈ w.sources, incarnation = w.target) ∧
      (∀ e ∈ h, SweepClosesIdle e) ∧ ∀ t fd, s.Holds t fd → s.connection fd ≠ none := by
  have hsafe : s.Safe := hr.invariant (System.safe_init 1 clock) fun s a s' hst =>
    System.safe_step hst (s.affine_of_single a)
  refine ⟨hsafe.owned.written, fun e he => ?_, hsafe.exclusive.opened⟩
  obtain ⟨h', -, hr', hst⟩ := hr.of_mem he
  exact System.Safe.closesIdle hst (hr'.invariant (System.safe_init 1 clock) fun s a s' hst =>
    System.safe_step hst (s.affine_of_single a))

def onlyThread : Fin 1 := ⟨0, Nat.one_pos⟩

/-- A client is served, closed by the sweep, and another gets its number. -/
def numberReusedAlone : List (SystemAction 1) :=
  (goesToWait 0 ++ acceptsClient 0 5 ++ serves 0 5).map (SystemAction.thread onlyThread) ++
    [SystemAction.tick 60] ++
    (sweepsAndWaits 60 ++ acceptsClient 60 5 ++ serves 60 5).map (SystemAction.thread onlyThread)

theorem oneThread_safe_numberReused :
    ∃ h s, Run (SystemStep wwwOptions) (.init 1 0) h s ∧ (∃ w ∈ s.written, w.target = 2) ∧
      (∀ w ∈ s.written, ∀ incarnation ∈ w.sources, incarnation = w.target) ∧
      (∀ e ∈ h, SweepClosesIdle e) ∧ ∀ t fd, s.Holds t fd → s.connection fd ≠ none := by
  obtain ⟨h, s, hr, hp⟩ := exists_run_of_any (System.next wwwOptions) (.init 1 0)
    numberReusedAlone (p := fun s => decide (∃ w ∈ s.written, w.target = 2)) (by decide +kernel)
  exact ⟨h, s, hr, of_decide_eq_true hp, oneThread_safe hr⟩

end UbServer

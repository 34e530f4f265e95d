import UbServer.Threads.Exclusive

/-!
# Nobody is left waiting

`EPOLLONESHOT` reports an event of a client once, and the server's socket, which is edge-triggered, is
reported once for each time that something happens on it. A client or a connection request that no
thread is at, and that is not going to be reported, is never served.

* `System.Attended`: an open client will be reported, or a thread is at it.
* `noneForgotten_iff`: when that holds of every open client along a run.
* `Listening`: the threads with the connections that wait to be accepted.
* `noneWaiting_iff`: when a thread is on its way to them along a run.
-/

namespace UbServer

open Runs QueueConnectionsType

/-! ### Clients -/

section Clients

variable {n : ℕ} {options : Options} {s s' : System n} {a : SystemAction n}

/-- The next event of the descriptor will be reported, or a thread is at it. -/
def System.Attended (s : System n) (fd : ℕ) : Prop :=
  (s.sockets fd).any Socket.armed ∨ ∃ t, fd ∈ (s.workers t).phase.clients

def System.NoneForgotten (s : System n) : Prop := ∀ fd, s.connection fd ≠ none → s.Attended fd

/-- A thread passes over the event of an open client, one without `EPOLLIN`, only when the client is
attended to in another way. -/
def System.PassesOver (s : System n) : SystemAction n → Prop
  | .thread t (.nextEvent ..) =>
    match (s.workers t).phase with
    | .processing (.client fd false :: events) => s.connection fd ≠ none →
        (s.sockets fd).any Socket.armed ∨ fd ∈ events.filterMap Event.fd ∨
          ∃ u, u ≠ t ∧ fd ∈ (s.workers u).phase.clients
    | _ => True
  | _ => True

/-- **How a thread leaves a client**: it re-arms or closes it, or passes over its event. -/
theorem Worker.step_leaves {clock : ℤ} {w w' : Worker} {b : WorkerAction}
    {effects : List (ℕ × Effect)} {fd : ℕ} (hs : w.Sound clock)
    (h : w.Stepped options b w' effects) (hin : fd ∈ w.phase.clients)
    (hout : fd ∉ w'.phase.clients) :
    (fd, .rearmed) ∈ effects ∨ (fd, .closed) ∈ effects ∨
      ∃ now mem events, b = .nextEvent now mem ∧
        w.phase = .processing (.client fd false :: events) ∧ w'.phase = .processing events := by
  cases h with
  | skipped now mem fd' events hp =>
    rw [hp] at hin
    rcases List.mem_cons.mp hin with rfl | hin
    · exact Or.inr (Or.inr ⟨now, mem, events, rfl, hp, rfl⟩)
    · exact absurd hin hout
  | call sys e e' events queue hp hstep =>
    have hloop : w.phase.loop = some e := by rw [hp]; rfl
    have hpc := EventLoop.step_ended hstep
    have hstepped := EventLoop.step_cases hstep
    obtain ⟨hclients, hclients'⟩ := Phase.clients_step events hstepped.clientFd hpc
    rw [hp, hclients] at hin
    rw [hclients'] at hout
    have hended : e'.pc = .ended ∧ fd = e.clientFd := by
      split at hout
      · rename_i hended
        rcases List.mem_cons.mp hin with rfl | hin
        · exact ⟨hended, rfl⟩
        · exact absurd hin hout
      · exact absurd hin hout
    obtain ⟨hended, rfl⟩ := hended
    cases hstepped with
    | turned c pc new hsame hopen hclose hsound heffects => exact absurd hended hopen
    | updated q' hstate hexists hupdate =>
      rw [e.goto_newEffects]
      exact Or.inl (by simp)
    | dequeued hstate hexists =>
      rw [e.goto_newEffects]
      exact Or.inr (Or.inl (by simp))
    | absent new habsent heffects =>
      -- the record of a loop is there
      refine absurd ?_ habsent
      unfold existsConnection
      rw [hs.slot e hloop hpc]
      rfl
  | readTime now hp | sweepEnd now hp hexpired | epollWait events hp hlen | batchEnd now mem hp =>
    rw [hp] at hin
    cases hin
  | server now mem events hp | acceptEnd events hp | client now mem fd' events queue slot hp hget =>
    rw [hp] at hin
    exact absurd hin hout
  | endEvent e events hp hended =>
    rw [hp, Phase.clients_handling, if_pos hended] at hin
    exact absurd hin hout
  | sweepClose | sweepStuck | accept => exact absurd hin hout

theorem System.perform_open {t : Fin n} {effect : ℕ × Effect} {fd : ℕ}
    (h : s.perform t effect = some s') (hopen : s'.connection fd ≠ none) :
    s.connection fd ≠ none ∧ effect ≠ (fd, .closed) ∧
      ((s.sockets fd).any Socket.armed → (s'.sockets fd).any Socket.armed) ∧
      (effect = (fd, .rearmed) → (s'.sockets fd).any Socket.armed) := by
  obtain ⟨fd', effect⟩ := effect
  cases effect with
  | received bytes | sent bytes =>
    obtain ⟨socket, -, rfl⟩ := Option.map_eq_some_iff.mp h
    exact ⟨hopen, by simp, id, by simp⟩
  | logged =>
    obtain rfl := Option.some.inj h
    exact ⟨hopen, by simp, id, by simp⟩
  | rearmed =>
    obtain ⟨socket, hsocket, rfl⟩ := Option.map_eq_some_iff.mp h
    rw [System.connection_rearmed (s := s) hsocket rfl] at hopen
    by_cases hfd : fd = fd'
    · subst hfd
      have harmed : ((Function.update s.sockets fd (some { socket with armed := true })) fd).any
          Socket.armed := by
        rw [Function.update_self]
        rfl
      exact ⟨hopen, by simp, fun _ => harmed, fun _ => harmed⟩
    · refine ⟨hopen, by simp, fun harmed => ?_, fun heq => absurd (Prod.mk.inj heq).1.symm hfd⟩
      show ((Function.update s.sockets fd' _) fd).any Socket.armed
      rw [Function.update_of_ne hfd]
      exact harmed
  | closed =>
    obtain rfl := Option.some.inj h
    have hfd : fd ≠ fd' := by
      rintro rfl
      exact hopen (by simp [System.connection])
    have hsockets : Function.update s.sockets fd' none fd = s.sockets fd :=
      Function.update_of_ne hfd _ _
    refine ⟨fun hnone => hopen ?_, fun heq => hfd (Prod.mk.inj heq).1.symm, fun harmed => ?_, by simp⟩
    · show (Function.update s.sockets fd' none fd).map _ = none
      rw [hsockets]
      exact hnone
    · show (Function.update s.sockets fd' none fd).any _
      rw [hsockets]
      exact harmed

theorem System.performAll_open {t : Fin n} {effects : List (ℕ × Effect)} {fd : ℕ}
    (h : effects.foldlM (System.perform t) s = some s') (hopen : s'.connection fd ≠ none) :
    s.connection fd ≠ none ∧ (fd, .closed) ∉ effects ∧
      ((s.sockets fd).any Socket.armed → (s'.sockets fd).any Socket.armed) ∧
      ((fd, .rearmed) ∈ effects → (s'.sockets fd).any Socket.armed) := by
  induction effects generalizing s with
  | nil =>
    obtain rfl := Option.some.inj h
    exact ⟨hopen, List.not_mem_nil, id, fun he => absurd he List.not_mem_nil⟩
  | cons effect effects ih =>
    obtain ⟨s₁, hperform, h⟩ := Option.bind_eq_some_iff.mp h
    obtain ⟨hopen₁, hclosed₁, harmed₁, hrearmed₁⟩ := ih h
    obtain ⟨hopen₀, hclosed₀, harmed₀, hrearmed₀⟩ := System.perform_open hperform hopen₁
    refine ⟨hopen₀, fun he => ?_, fun harmed => harmed₁ (harmed₀ harmed), fun he => ?_⟩
    · rcases List.mem_cons.mp he with heq | he
      · exact hclosed₀ heq.symm
      · exact hclosed₁ he
    · rcases List.mem_cons.mp he with heq | he
      · exact harmed₁ (hrearmed₀ heq.symm)
      · exact hrearmed₁ he

/-- What is armed before a step's effects: all that was, but for what `epoll_wait` reports, and what
is accepted. -/
theorem System.enter_armed (t : Fin n) (b : WorkerAction) {fd : ℕ}
    (hopen : (s.enter t b).connection fd ≠ none) :
    ((s.enter t b).sockets fd).any Socket.armed ∨
      (s.connection fd ≠ none ∧ ¬ (s.sockets fd).any Socket.armed) ∨
      ∃ events, b = .epollWait events ∧ fd ∈ events.filterMap Event.fd := by
  have hsame : ∀ {s' : System n}, s'.sockets = s.sockets → s'.connection fd ≠ none →
      (s'.sockets fd).any Socket.armed ∨
        (s.connection fd ≠ none ∧ ¬ (s.sockets fd).any Socket.armed) ∨
        ∃ events, b = .epollWait events ∧ fd ∈ events.filterMap Event.fd := by
    intro s' hsockets hopen
    unfold System.connection at hopen
    rw [hsockets] at hopen ⊢
    by_cases harmed : (s.sockets fd).any Socket.armed
    · exact Or.inl harmed
    · exact Or.inr (Or.inl ⟨hopen, harmed⟩)
  cases b with
  | epollWait events =>
    by_cases hfd : fd ∈ events.filterMap Event.fd
    · exact Or.inr (Or.inr ⟨events, rfl, hfd⟩)
    · have hkept : (s.disarm events fd) = s.sockets fd := by
        unfold System.disarm
        rw [List.contains_eq_mem, decide_eq_false hfd]
        cases s.sockets fd with
        | none => rfl
        | some socket => simp
      have hopen : (s.disarm events fd).map Socket.incarnation ≠ none := hopen
      rw [hkept] at hopen
      show ((s.disarm events fd).any Socket.armed = true) ∨ _
      rw [hkept]
      by_cases harmed : (s.sockets fd).any Socket.armed
      · exact Or.inl harmed
      · exact Or.inr (Or.inl ⟨hopen, harmed⟩)
  | accept fd' =>
    by_cases hfd : fd = fd'
    · subst hfd
      refine Or.inl ?_
      show ((Function.update s.sockets fd _) fd).any Socket.armed
      rw [Function.update_self]
      rfl
    · have hkept : (s.enter t (.accept fd')).sockets fd = s.sockets fd :=
        Function.update_of_ne hfd _ _
      unfold System.connection at hopen
      rw [hkept] at hopen ⊢
      by_cases harmed : (s.sockets fd).any Socket.armed
      · exact Or.inl harmed
      · exact Or.inr (Or.inl ⟨hopen, harmed⟩)
  | nextEvent now mem =>
    refine hsame ?_ hopen
    unfold System.enter
    simp only
    split <;> rfl
  | _ => exact hsame rfl hopen

/-- **What every step keeps that passes over no event.** -/
theorem System.noneForgotten_step (hs : s.Sound) (h : SystemStep options s a s')
    (hg : s.PassesOver a) (hall : s.NoneForgotten) : s'.NoneForgotten := by
  intro fd hopen
  cases a with
  | tick now =>
    obtain ⟨-, rfl⟩ := System.tick_inv h
    exact hall fd hopen
  | thread t b =>
    obtain ⟨w', effects, hstep, hperform, hworkers⟩ := System.step_workers h
    have hw : s'.workers t = w' := by rw [hworkers, Function.update_self]
    have hothers : ∀ u, u ≠ t → s'.workers u = s.workers u := fun u hu => by
      rw [hworkers, Function.update_of_ne hu]
    obtain ⟨hopen₀, hclosed, harmed, hrearmed⟩ := System.performAll_open hperform hopen
    rcases s.enter_armed t b hopen₀ with harmed₀ | ⟨hopen, hidle⟩ | ⟨events, rfl, hfd⟩
    · exact Or.inl (harmed harmed₀)
    · -- it was not to be reported, so a thread was at it
      rcases hall fd hopen with harmed₀ | ⟨u, hu⟩
      · exact absurd harmed₀ hidle
      · by_cases hut : u = t
        · subst hut
          by_cases hin : fd ∈ w'.phase.clients
          · exact Or.inr ⟨u, by rw [hw]; exact hin⟩
          · rcases Worker.step_leaves (hs.workers u) (Worker.step_cases hstep) hu hin with
              hre | hcl | ⟨now, mem, events, rfl, hp, hp'⟩
            · exact Or.inl (hrearmed hre)
            · exact absurd hcl hclosed
            · unfold System.PassesOver at hg
              simp only [hp] at hg
              rcases hg hopen with harmed₀ | hfd | ⟨u', hne, hu'⟩
              · exact absurd harmed₀ hidle
              · exact absurd (by rw [hp']; exact hfd) hin
              · exact Or.inr ⟨u', by rw [hothers u' hne]; exact hu'⟩
        · exact Or.inr ⟨u, by rw [hothers u hut]; exact hu⟩
    · -- it has just been reported
      cases Worker.step_cases hstep with
      | epollWait events hp hlen => exact Or.inr ⟨t, by rw [hw]; exact hfd⟩

theorem System.passesOver_of_noneForgotten (h : SystemStep options s a s')
    (hall : s'.NoneForgotten) : s.PassesOver a := by
  unfold System.PassesOver
  split
  · rename_i t now mem
    split
    · rename_i fd events hp
      intro hopen
      obtain ⟨-, w', effects, hstep, hperform⟩ := System.next_inv h
      have hw : w' = { s.workers t with phase := .processing events } ∧ effects = [] := by
        unfold Worker.step at hstep
        simp only [hp] at hstep
        obtain ⟨rfl, rfl⟩ := Prod.mk.inj (Option.some.inj hstep)
        exact ⟨rfl, rfl⟩
      obtain ⟨rfl, rfl⟩ := hw
      have henter : s.enter t (.nextEvent now mem) = s := by
        simp only [System.enter, Worker.takes, hp]
      rw [henter] at hperform
      obtain rfl := Option.some.inj hperform
      rcases hall fd hopen with harmed | ⟨u, hu⟩
      · exact Or.inl harmed
      · have hu : fd ∈ (Function.update s.workers t _ u).phase.clients := hu
        by_cases hut : u = t
        · subst hut
          rw [Function.update_self] at hu
          exact Or.inr (Or.inl hu)
        · rw [Function.update_of_ne hut] at hu
          exact Or.inr (Or.inr ⟨u, hut, hu⟩)
    · trivial
  · trivial

end Clients

/-- **No client is forgotten.** Along a run of any number of threads, in every state each open client
will be reported or has a thread at it, exactly when no thread ever passes over the event of a client
that is not attended to in another way. -/
theorem noneForgotten_iff {n : ℕ} {options : Options} {clock : ℤ}
    {h : List (Transition (System n) (SystemAction n))} {s : System n}
    (hr : Run (SystemStep options) (.init n clock) h s) :
    Always System.NoneForgotten h ↔ Guarded System.PassesOver h := by
  have hsound : ∀ (s : System n) a t, SystemStep options s a t → s.Sound → s.NoneForgotten →
      s.PassesOver a → t.Sound := fun _ _ _ hst hs _ _ => System.step_sound hs hst
  refine hr.forall_post_iff ?_ hsound fun _ _ _ hst hs hall => ?_
  · exact ⟨System.sound_init n clock, fun _ hopen => absurd rfl hopen⟩
  · exact ⟨fun hall' => System.passesOver_of_noneForgotten hst hall',
      fun hg => System.noneForgotten_step hs hst hg hall⟩

/-- The event of a client that has no `EPOLLIN` in its mask. -/
def errorEvent : List (SystemAction 2) :=
  (goesToWait 0 ++ acceptsClient 0 5 ++ goesToWait 0 ++
    [WorkerAction.epollWait [.client 5 false], .nextEvent 0 .zeroed]).map
      (SystemAction.thread firstThread)

theorem noneForgotten_iff_errorEvent :
    Always System.NoneForgotten (history (System.next wwwOptions) (.init 2 0) errorEvent) ↔
      Guarded System.PassesOver (history (System.next wwwOptions) (.init 2 0) errorEvent) :=
  noneForgotten_iff (run_of_isSome (by decide +kernel))

/-! ### Connections to be accepted -/

/-- The thread is in `acceptEpollConnection`, or will come to it. -/
def Phase.Accepts : Phase → Prop
  | .accepting _ => True
  | phase => .server ∈ phase.pending

/-- The threads, the number of connections that wait to be accepted, and whether the server's socket
will be reported. -/
structure Listening (n : ℕ) where
  system : System n
  backlog : ℕ
  ready : Bool

/-- The server's socket is registered while some connections wait already. -/
def Listening.init (n : ℕ) (clock : ℤ) (backlog : ℕ) : Listening n :=
  ⟨.init n clock, backlog, decide (0 < backlog)⟩

/-- A client connects, or the threads and the clock go on. -/
inductive ListenAction (n : ℕ) where
  | arrive
  | act (a : SystemAction n)

section Steps

variable {n : ℕ} (l : Listening n)

/-- `epoll_wait` reports the server's socket to one thread for each time that something happens on it,
and `accept` returns a connection only if one waits. It fails with `EAGAIN` if none does, and may fail
otherwise. -/
def Listening.Answers : SystemAction n → Prop
  | .thread _ (.epollWait events) => events.count .server ≤ 1 ∧ (.server ∈ events → l.ready = true)
  | .thread _ (.accept _) => 0 < l.backlog
  | _ => True

instance : (a : SystemAction n) → Decidable (l.Answers a)
  | .thread _ (.epollWait events) => inferInstanceAs (Decidable
      (events.count .server ≤ 1 ∧ (.server ∈ events → l.ready = true)))
  | .thread _ (.accept _) => inferInstanceAs (Decidable (0 < l.backlog))
  | .tick _ | .thread _ (.readTime _) | .thread _ .sweep | .thread _ (.nextEvent ..) |
    .thread _ .acceptEnd | .thread _ (.call _) | .thread _ .endEvent =>
    inferInstanceAs (Decidable True)

def Listening.backlogAfter : SystemAction n → ℕ
  | .thread _ (.accept _) => l.backlog - 1
  | _ => l.backlog

def Listening.readyAfter : SystemAction n → Bool
  | .thread _ (.epollWait events) => l.ready && !events.contains .server
  | _ => l.ready

/-- One step. -/
def Listening.next (options : Options) (l : Listening n) : ListenAction n → Option (Listening n)
  | .arrive => some { l with backlog := l.backlog + 1, ready := true }
  | .act a =>
    if l.Answers a then
      (l.system.next options a).map fun s => ⟨s, l.backlogAfter a, l.readyAfter a⟩
    else none

end Steps

/-- One step, as a step relation. -/
abbrev ListenStep {n : ℕ} (options : Options) (l : Listening n) (a : ListenAction n)
    (l' : Listening n) : Prop := l.next options a = some l'

section Waiting

variable {n : ℕ} {options : Options} {l l' : Listening n} {a : ListenAction n}

/-- The server's socket will be reported, or a thread will come to `accept`. -/
def Listening.OnTheWay (l : Listening n) : Prop :=
  l.ready = true ∨ ∃ t, (l.system.workers t).phase.Accepts

def Listening.NoneWaiting (l : Listening n) : Prop := 0 < l.backlog → l.OnTheWay

/-- A thread leaves the accept loop while connections wait, because `accept` has failed with another
error than `EAGAIN`, only when somebody else will come to them. -/
def Listening.LeavesNone (l : Listening n) : ListenAction n → Prop
  | .act (.thread t .acceptEnd) => 0 < l.backlog →
      l.ready = true ∨ .server ∈ (l.system.workers t).phase.pending ∨
        ∃ u, u ≠ t ∧ (l.system.workers u).phase.Accepts
  | _ => True

theorem Worker.Stepped.accepts {w w' : Worker} {b : WorkerAction} {effects : List (ℕ × Effect)}
    (h : w.Stepped options b w' effects) (haccepts : w.phase.Accepts) :
    w'.phase.Accepts ∨ b = .acceptEnd := by
  cases h with
  | readTime now hp | sweepEnd now hp hexpired | epollWait events hp hlen | batchEnd now mem hp =>
    rw [hp] at haccepts
    cases haccepts
  | server now mem events hp => exact Or.inl trivial
  | client now mem fd events queue slot hp hget | skipped now mem fd events hp =>
    rw [hp] at haccepts
    rcases List.mem_cons.mp haccepts with heq | hin
    · cases heq
    · exact Or.inl hin
  | acceptEnd events hp => exact Or.inr rfl
  | call sys e e' events queue hp hstep | endEvent e events hp hended =>
    rw [hp] at haccepts
    exact Or.inl haccepts
  | sweepClose | sweepStuck | accept => exact Or.inl haccepts

theorem System.acceptEnd_workers {s s' : System n} {t : Fin n}
    (h : SystemStep options s (.thread t .acceptEnd) s') :
    ∃ events, (s.workers t).phase = .accepting events ∧
      s'.workers = Function.update s.workers t { s.workers t with phase := .processing events } := by
  obtain ⟨w', effects, hstep, -, hworkers⟩ := System.step_workers h
  cases Worker.step_cases hstep with
  | acceptEnd events hp => exact ⟨events, hp, hworkers⟩

theorem Listening.next_inv {b : SystemAction n} (h : ListenStep options l (.act b) l') :
    l.Answers b ∧ SystemStep options l.system b l'.system ∧ l'.backlog = l.backlogAfter b ∧
      l'.ready = l.readyAfter b := by
  unfold ListenStep Listening.next at h
  simp only at h
  split at h
  · obtain ⟨s, hs, rfl⟩ := Option.map_eq_some_iff.mp h
    exact ⟨‹_›, hs, rfl, rfl⟩
  · cases h

/-- **What every step keeps that leaves nobody.** -/
theorem Listening.noneWaiting_step (h : ListenStep options l a l') (hg : l.LeavesNone a)
    (hnone : l.NoneWaiting) : l'.NoneWaiting := by
  intro hwaits
  cases a with
  | arrive =>
    obtain rfl := Option.some.inj h
    exact Or.inl rfl
  | act b =>
    obtain ⟨-, hst, hbacklog, hready⟩ := Listening.next_inv h
    have hwaits₀ : 0 < l.backlog := by
      rw [hbacklog] at hwaits
      unfold Listening.backlogAfter at hwaits
      split at hwaits
      · omega
      · exact hwaits
    cases b with
    | tick now =>
      obtain ⟨-, hsame⟩ := System.tick_inv hst
      rcases hnone hwaits₀ with hr | ⟨t, ht⟩
      · exact Or.inl (hready.trans hr)
      · exact Or.inr ⟨t, by rw [hsame]; exact ht⟩
    | thread t b =>
      obtain ⟨w', effects, hstep, -, hworkers⟩ := System.step_workers hst
      have hstepped := Worker.step_cases hstep
      have hself : l'.system.workers t = w' := by rw [hworkers, Function.update_self]
      have hothers : ∀ u, u ≠ t → l'.system.workers u = l.system.workers u := fun u hu => by
        rw [hworkers, Function.update_of_ne hu]
      -- a thread on its way stays so, or leaves the loop
      have hthread : ∀ u, (l.system.workers u).phase.Accepts →
          (l'.system.workers u).phase.Accepts ∨ u = t ∧ b = .acceptEnd := by
        intro u hu
        by_cases hut : u = t
        · subst hut
          rw [hself]
          exact (hstepped.accepts hu).imp_right fun hb => ⟨rfl, hb⟩
        · rw [hothers u hut]
          exact Or.inl hu
      rcases hnone hwaits₀ with hr | ⟨u, hu⟩
      · -- only `epoll_wait` takes the report
        by_cases hr' : l'.ready = true
        · exact Or.inl hr'
        · have htaken : ∃ events, b = .epollWait events ∧ .server ∈ events := by
            rw [hready] at hr'
            unfold Listening.readyAfter at hr'
            split at hr'
            · rename_i t' events heq
              obtain ⟨rfl, rfl⟩ := SystemAction.thread.inj heq
              rw [hr, Bool.true_and, Bool.not_eq_true', Bool.not_eq_false] at hr'
              exact ⟨events, rfl, List.contains_iff_mem.mp hr'⟩
            · exact absurd hr hr'
          obtain ⟨events, rfl, hserver⟩ := htaken
          refine Or.inr ⟨t, ?_⟩
          rw [hself]
          cases hstepped with
          | epollWait events hp hlen => exact hserver
      · rcases hthread u hu with hu' | ⟨rfl, rfl⟩
        · exact Or.inr ⟨u, hu'⟩
        · obtain ⟨events, hp, hworkers'⟩ := System.acceptEnd_workers hst
          rcases hg hwaits₀ with hr | hserver | ⟨u', hne, hu'⟩
          · exact Or.inl (hready.trans hr)
          · refine Or.inr ⟨u, ?_⟩
            rw [hworkers', Function.update_self]
            rw [hp] at hserver
            exact hserver
          · exact Or.inr ⟨u', by rw [hothers u' hne]; exact hu'⟩

theorem Listening.leavesNone_of_noneWaiting (h : ListenStep options l a l')
    (hnone : l'.NoneWaiting) : l.LeavesNone a := by
  unfold Listening.LeavesNone
  split
  · rename_i t
    intro hwaits
    obtain ⟨-, hst, hbacklog, hready⟩ := Listening.next_inv h
    obtain ⟨events, hp, hworkers⟩ := System.acceptEnd_workers hst
    rcases hnone (hbacklog.symm ▸ hwaits) with hr | ⟨u, hu⟩
    · exact Or.inl (hready.symm.trans hr)
    · rw [hworkers] at hu
      by_cases hut : u = t
      · subst hut
        rw [Function.update_self] at hu
        refine Or.inr (Or.inl ?_)
        rw [hp]
        exact hu
      · rw [Function.update_of_ne hut] at hu
        exact Or.inr (Or.inr ⟨u, hut, hu⟩)
  · trivial

end Waiting

/-- **No connection is left waiting.** Along a run of any number of threads, in every state in which
connections wait to be accepted the server's socket will be reported or a thread will come to
`accept`, exactly when no thread leaves connections behind, after another error than `EAGAIN`, that
nobody else will come to. -/
theorem noneWaiting_iff {n : ℕ} {options : Options} {clock : ℤ} {backlog : ℕ}
    {h : List (Transition (Listening n) (ListenAction n))} {l : Listening n}
    (hr : Run (ListenStep options) (.init n clock backlog) h l) :
    Always Listening.NoneWaiting h ↔ Guarded Listening.LeavesNone h := by
  have htrivial : ∀ (l : Listening n) a m, ListenStep options l a m → True → l.NoneWaiting →
      l.LeavesNone a → True := fun _ _ _ _ _ _ _ => trivial
  refine hr.forall_post_iff ?_ htrivial fun _ _ _ hst _ hnone => ?_
  · exact ⟨trivial, fun hwaits => Or.inl (decide_eq_true hwaits)⟩
  · exact ⟨fun hnone' => Listening.leavesNone_of_noneWaiting hst hnone',
      fun hg => Listening.noneWaiting_step hst hg hnone⟩

/-- Two clients connect; `accept` returns one and then fails, with no descriptors left. -/
def acceptFails : List (ListenAction 2) :=
  [.arrive, .arrive] ++ (goesToWait 0 ++ acceptsClient 0 5).map
    fun a => .act (.thread firstThread a)

theorem noneWaiting_iff_acceptFails :
    Always Listening.NoneWaiting
        (history (Listening.next wwwOptions) (.init 2 0 0) acceptFails) ↔
      Guarded Listening.LeavesNone
        (history (Listening.next wwwOptions) (.init 2 0 0) acceptFails) :=
  noneWaiting_iff (run_of_isSome (by decide +kernel))

end UbServer

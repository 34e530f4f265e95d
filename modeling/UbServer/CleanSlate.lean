import UbServer.Worker

/-!
# Clean slate between requests

One thread with a clock that does not go back. Whatever its system calls answer, when the loop for a
client's event ends, the client is closed and forgotten, or its record is as good as new.

* `Pristine`: nothing of a request is in the record.
* `Thread.next`: a step of the thread, with the records before the event kept for comparison.
* `loopEnd_cleanSlate`: the state when a loop ends, and at `epoll_wait`.
-/

namespace UbServer

open Runs QueueConnectionsType

/-- Nothing but the descriptor, the time and an empty request buffer: every other field is as
`emptyConnection` leaves it. -/
def Pristine (c : QueueConnectionElementType) : Prop :=
  ∃ mem, c = freshConnection c.clientFd c.priorityTime mem

theorem pristine_freshConnection (fd : ℕ) (now : ℤ) (mem : RequestBlock) :
    Pristine (freshConnection fd now mem) := ⟨mem, rfl⟩

/-- A thread, the last value `time(NULL)` returned to it, and the records before the event that it
handles or handled last. -/
structure Thread where
  clock : ℤ
  worker : Worker
  before : FdMap

def Thread.init (clock : ℤ) : Thread := ⟨clock, .init, fun _ => none⟩

/-- The records before the event, which is taken up with `nextEvent`. -/
def Thread.beforeEvent (t : Thread) : WorkerAction → FdMap
  | .nextEvent .. => getConnectionByFd t.worker.queue
  | _ => t.before

/-- One step of the thread. -/
def Thread.next (options : Options) (t : Thread) (a : WorkerAction) : Option Thread :=
  if a.Timely t.clock then
    (t.worker.step options a).map fun r => ⟨a.clock t.clock, r.1, t.beforeEvent a⟩
  else none

/-- One step of the thread, as a step relation. -/
abbrev ThreadStep (options : Options) (t : Thread) (a : WorkerAction) (t' : Thread) : Prop :=
  t.next options a = some t'

/-- The client is gone and was closed once. -/
def Gone (q : QueueConnectionsType) (e : EventLoop) : Prop :=
  existsConnection q e.clientFd = false ∧ e.effects.count .closed = 1 ∧
    e.effects.count .rearmed = 0

/-- The client's record is pristine and stamped with the current time, and the client was re-armed. -/
def Renewed (q : QueueConnectionsType) (clock : ℤ) (e : EventLoop) : Prop :=
  ∃ c, getConnectionByFd q e.clientFd = some c ∧ Pristine c ∧ c.priorityTime = clock ∧
    e.effects.count .rearmed = 1 ∧ e.effects.count .closed = 0

/-- The loop for a client is over. -/
structure LoopEnded (t : Thread) (e : EventLoop) : Prop where
  outcome : Gone t.worker.queue e ∨ Renewed t.worker.queue t.clock e
  others : ∀ fd, fd ≠ e.clientFd → getConnectionByFd t.worker.queue fd = t.before fd

/-- Every record of the map but that of `fd`. -/
def PristineBut (m : FdMap) (fd : Option ℕ) : Prop :=
  ∀ x c, some x ≠ fd → m x = some c → Pristine c

/-- What holds while a client is handled: as long as the loop goes on, the client is neither closed
nor re-armed. -/
structure Handling (t : Thread) (e : EventLoop) : Prop where
  pristine : PristineBut (getConnectionByFd t.worker.queue) (some e.clientFd)
  others : ∀ fd, fd ≠ e.clientFd → getConnectionByFd t.worker.queue fd = t.before fd
  client : if e.pc = .ended then Gone t.worker.queue e ∨ Renewed t.worker.queue t.clock e
    else e.effects.count .closed = 0 ∧ e.effects.count .rearmed = 0

/-- What holds of a thread in every state. -/
structure CleanSlate (t : Thread) : Prop where
  sound : t.worker.Sound t.clock
  handling : ∀ e ∈ t.worker.phase.loop, Handling t e
  pristine : t.worker.phase.loop = none → PristineBut (getConnectionByFd t.worker.queue) none

section Maps

variable {m : FdMap} {fd : ℕ}

theorem pristineBut_update (h : PristineBut m (some fd)) (r : Option QueueConnectionElementType) :
    PristineBut (Function.update m fd r) (some fd) := by
  intro x c hx hc
  rw [Function.update_of_ne (fun hxf => hx (congrArg some hxf))] at hc
  exact h x c hx hc

theorem others_update {m' before : FdMap} {r : Option QueueConnectionElementType}
    (h : ∀ x, x ≠ fd → m x = before x) (hm : m' = Function.update m fd r) :
    ∀ x, x ≠ fd → m' x = before x := by
  intro x hx
  rw [hm, Function.update_of_ne hx]
  exact h x hx

theorem PristineBut.mono (h : PristineBut m none) : PristineBut m (some fd) :=
  fun x c _ hc => h x c nofun hc

theorem pristineBut_none (h : PristineBut m (some fd)) (hfd : ∀ c, m fd = some c → Pristine c) :
    PristineBut m none := by
  intro x c _ hc
  by_cases hx : x = fd
  · subst hx
    exact hfd c hc
  · exact h x c (fun heq => hx (Option.some.inj heq)) hc

end Maps

theorem TurnEffects.counts {sys : Sys} {c : QueueConnectionElementType} {effects : List Effect}
    (h : TurnEffects sys c effects) : effects.count .closed = 0 ∧ effects.count .rearmed = 0 := by
  cases h <;> simp

theorem threadStep_inv {options : Options} {t t' : Thread} {a : WorkerAction}
    (h : ThreadStep options t a t') :
    a.Timely t.clock ∧ (∃ effects, t.worker.step options a = some (t'.worker, effects)) ∧
      t'.clock = a.clock t.clock ∧ t'.before = t.beforeEvent a := by
  unfold ThreadStep Thread.next at h
  split at h
  · obtain ⟨⟨worker, effects⟩, hstep, rfl⟩ := Option.map_eq_some_iff.mp h
    exact ⟨‹_›, ⟨effects, hstep⟩, rfl, rfl⟩
  · cases h

/-- When the loop of a client has ended, every record is pristine. -/
theorem Handling.ended {t : Thread} {e : EventLoop} (h : Handling t e) (hpc : e.pc = .ended) :
    PristineBut (getConnectionByFd t.worker.queue) none := by
  have hclient := h.client
  rw [if_pos hpc] at hclient
  refine pristineBut_none h.pristine fun c hc => ?_
  rcases hclient with ⟨hgone, -⟩ | ⟨c', hc', hp, -⟩
  · rw [existsConnection, Option.isSome_eq_false_iff, Option.isNone_iff_eq_none] at hgone
    rw [getConnectionByFd_eq_none.mpr hgone] at hc
    cases hc
  · obtain rfl := Option.some.inj (hc'.symm.trans hc)
    exact hp

theorem CleanSlate.all_pristine {t : Thread} (h : CleanSlate t)
    (hended : ∀ e ∈ t.worker.phase.loop, e.pc = .ended) :
    PristineBut (getConnectionByFd t.worker.queue) none := by
  cases hloop : t.worker.phase.loop with
  | none => exact h.pristine hloop
  | some e => exact (h.handling e hloop).ended (hended e hloop)

theorem Handling.step {t t' : Thread} {e e' : EventLoop} {sys : Sys} (h : Handling t e)
    (hpc : e.pc ≠ .ended) (hhandled : e.Handled t.worker.queue sys t'.worker.queue e')
    (hclock : t'.clock = sys.now) (hbefore : t'.before = t.before) : Handling t' e' := by
  have hruns := h.client
  rw [if_neg hpc] at hruns
  obtain ⟨hclosed, hrearmed⟩ := hruns
  have hothers : ∀ {r : Option QueueConnectionElementType}, getConnectionByFd t'.worker.queue =
      Function.update (getConnectionByFd t.worker.queue) e.clientFd r →
      ∀ fd, fd ≠ e.clientFd → getConnectionByFd t'.worker.queue fd = t'.before fd := fun hm =>
    hbefore ▸ others_update h.others hm
  cases hhandled with
  | turned pc effects hm hidx hsame hne hopen hclose heffects =>
    refine ⟨hm ▸ pristineBut_update h.pristine _, hothers hm, ?_⟩
    rw [if_neg (show (e.goto pc effects).pc ≠ .ended from hne)]
    obtain ⟨h1, h2⟩ := heffects.counts
    exact ⟨by simp [EventLoop.goto, hclosed, h1], by simp [EventLoop.goto, hrearmed, h2]⟩
  | updated hm =>
    refine ⟨hm ▸ pristineBut_update h.pristine _, hothers hm, ?_⟩
    rw [if_pos (show (e.goto .ended [.logged, .rearmed]).pc = .ended from rfl)]
    refine Or.inr ⟨_, ?_, pristine_freshConnection e.clientFd sys.now sys.mem, hclock.symm, ?_, ?_⟩
    · show getConnectionByFd t'.worker.queue e.clientFd = _
      rw [hm, Function.update_self]
    · simp [EventLoop.goto, hrearmed]
    · simp [EventLoop.goto, hclosed]
  | dequeued hm hstate =>
    refine ⟨hm ▸ pristineBut_update h.pristine _, hothers hm, ?_⟩
    rw [if_pos (show (e.goto .ended [.closed]).pc = .ended from rfl)]
    refine Or.inl ⟨?_, ?_, ?_⟩
    · show existsConnection t'.worker.queue e.clientFd = false
      have hnone : getConnectionByFd t'.worker.queue e.clientFd = none := by
        rw [hm, Function.update_self]
      rw [existsConnection, getConnectionByFd_eq_none.mp hnone]
      rfl
    · simp [EventLoop.goto, hclosed]
    · simp [EventLoop.goto, hrearmed]

/-- **What every step of a thread keeps.** -/
theorem cleanSlate_step {options : Options} {t t' : Thread} {a : WorkerAction}
    (hst : ThreadStep options t a t') (h : CleanSlate t) : CleanSlate t' := by
  obtain ⟨htimely, ⟨effects, hstep⟩, hclock, hbefore⟩ := threadStep_inv hst
  obtain ⟨hs', hmoved⟩ := Worker.step_spec h.sound htimely hstep
  rw [← hclock] at hs'
  cases hmoved with
  | rested a w' hrests htakes =>
    refine ⟨hs', fun e he => ?_, fun _ => hrests.queue ▸ h.all_pristine hrests.ended⟩
    rw [hrests.loop] at he
    cases he
  | swept now fd c w' hp hp' hexpired hc hold hm =>
    refine ⟨hs', fun e he => ?_, fun _ => ?_⟩
    · rw [hp'] at he
      cases he
    · have hpristine := h.pristine (by rw [hp]; rfl)
      rw [hm]
      refine pristineBut_none (pristineBut_update hpristine.mono none) fun c hc => ?_
      rw [Function.update_self] at hc
      cases hc
  | taken now mem fd slot w' htakes hloop hfd hloop' hm =>
    refine ⟨hs', fun e he => ?_, fun hnone => ?_⟩
    · obtain rfl := Option.some.inj (hloop'.symm.trans he)
      refine ⟨hm ▸ pristineBut_update (h.pristine hloop).mono _, ?_, ?_⟩
      · exact others_update (fun fd _ => congrFun hbefore.symm fd) hm
      · rw [if_neg (show (EventLoop.start fd slot).pc ≠ .ended from nofun)]
        exact ⟨rfl, rfl⟩
    · rw [hloop'] at hnone
      cases hnone
  | handled sys e e' w' hloop hpc hloop' hhandled =>
    refine ⟨hs', fun e₁ he₁ => ?_, fun hnone => ?_⟩
    · obtain rfl := Option.some.inj (hloop'.symm.trans he₁)
      exact (h.handling e hloop).step hpc hhandled hclock hbefore
    · rw [hloop'] at hnone
      cases hnone

theorem cleanSlate_init (clock : ℤ) : CleanSlate (.init clock) where
  sound := Worker.sound_init clock
  handling := fun _ he => by cases he
  pristine := fun _ _ _ _ hc => by cases hc

/-- **Clean slate.** In every state of a run: a loop that has ended for a client has closed it once
and forgotten it, or renewed its record and re-armed it, and left the records of all others as they
were; and when the thread calls `epoll_wait`, every record is pristine. -/
theorem loopEnd_cleanSlate {options : Options} {clock : ℤ}
    {h : List (Transition Thread WorkerAction)} {t : Thread}
    (hr : Run (ThreadStep options) (.init clock) h t) :
    (∀ e events, t.worker.phase = .handling e events → e.pc = .ended → LoopEnded t e) ∧
      (t.worker.phase = .waiting →
        ∀ fd c, getConnectionByFd t.worker.queue fd = some c → Pristine c) := by
  have hclean : CleanSlate t :=
    hr.invariant (cleanSlate_init clock) fun _ _ _ hst => cleanSlate_step hst
  constructor
  · intro e events hp hpc
    have hhandling := hclean.handling e (by rw [hp]; rfl)
    have hclient := hhandling.client
    rw [if_pos hpc] at hclient
    exact ⟨hclient, hhandling.others⟩
  · intro hp fd c hc
    exact hclean.pristine (by rw [hp]; rfl) fd c nofun hc

/-- A client asks for the index page on a connection to be kept, and gets it. -/
def indexPageServed : List WorkerAction :=
  [.readTime 100, .sweep, .epollWait [.client 5 true], .nextEvent 100 .zeroed,
    .call (localSys 100), .call { localSys 100 with recv := .data indexPageRequest },
    .call (localSys 100), .call { localSys 100 with send := .sent 1024 },
    .call (localSys 100), .call { localSys 101 with send := .sent 5 }, .call (localSys 102)]

theorem loopEnd_cleanSlate_indexPage :
    ∃ t e events, t.worker.phase = .handling e events ∧ e.pc = .ended ∧ LoopEnded t e := by
  obtain ⟨h, t, hr, hp⟩ := exists_run_of_any (Thread.next wwwOptions) (.init 100) indexPageServed
    (p := fun t => t.worker.phase.loop.any fun e => e.pc = .ended) (by decide +kernel)
  cases hphase : t.worker.phase with
  | handling e events =>
    rw [hphase] at hp
    have hended : e.pc = .ended := of_decide_eq_true hp
    exact ⟨t, e, events, hphase, hended, (loopEnd_cleanSlate hr).1 e events hphase hended⟩
  | _ => simp [hphase, Phase.loop] at hp

end UbServer

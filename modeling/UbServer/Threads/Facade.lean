import UbServer.Threads.Exclusive

/-!
# One `epoll` instance for each thread

`handleEpollFacade`: a thread makes an `epoll` instance of its own, registers the server's socket with
it and calls `handleEpoll`. What the thread accepts is registered with its instance, which reports it to
no other thread, until it is closed. `EPOLL_CTL_ADD` fails on a descriptor that is registered, and
`EPOLL_CTL_MOD` and `EPOLL_CTL_DEL` on one that the thread's own instance has not registered: that is
`die`.

* `FacadeSystem.next`: a step of the system with such instances.
* `FacadeSystem.Tied`: a thread has to do only with what its instance has registered, and nothing that
  is closed is registered.
* `facade_safe`: what the threads do to the connections.
* `facade_epollCtl`: no call of `epoll_ctl` fails.
-/

namespace UbServer

open Runs QueueConnectionsType

/-- The threads, and the one whose instance has registered an open descriptor. -/
structure FacadeSystem (n : ℕ) where
  system : System n
  registered : ℕ → Option (Fin n)

def FacadeSystem.init (n : ℕ) (clock : ℤ) : FacadeSystem n := ⟨.init n clock, fun _ => none⟩

section Steps

variable {n : ℕ} (f : FacadeSystem n) (t : Fin n)

/-- An instance reports what is registered with it. -/
def FacadeSystem.Reports : WorkerAction → Prop
  | .epollWait events => ∀ fd ∈ events.filterMap Event.fd, f.registered fd = some t
  | _ => True

instance : (a : WorkerAction) → Decidable (f.Reports t a)
  | .epollWait events => inferInstanceAs (Decidable
      (∀ fd ∈ events.filterMap Event.fd, f.registered fd = some t))
  | .readTime _ | .sweep | .nextEvent .. | .accept _ | .acceptEnd | .call _ | .endEvent =>
    inferInstanceAs (Decidable True)

/-- `epoll_ctl` on the thread's instance succeeds: to close a descriptor that is not open gives
`EBADF`, which `closeEpollClient` tolerates. -/
def FacadeSystem.Controls : ℕ × Effect → Prop
  | (fd, .rearmed) => f.registered fd = some t
  | (fd, .closed) => (f.system.sockets fd).isSome → f.registered fd = some t
  | _ => True

instance : (effect : ℕ × Effect) → Decidable (f.Controls t effect)
  | (fd, .rearmed) => inferInstanceAs (Decidable (f.registered fd = some t))
  | (fd, .closed) => inferInstanceAs (Decidable ((f.system.sockets fd).isSome → _ = _))
  | (_, .received _) | (_, .sent _) | (_, .logged) => inferInstanceAs (Decidable True)

/-- `addEpollClient`: `EPOLL_CTL_ADD` fails with `EEXIST` on a descriptor that is registered. -/
def FacadeSystem.Adds : WorkerAction → Prop
  | .accept fd => f.registered fd = none
  | _ => True

instance : (a : WorkerAction) → Decidable (f.Adds a)
  | .accept fd => inferInstanceAs (Decidable (f.registered fd = none))
  | .readTime _ | .sweep | .epollWait _ | .nextEvent .. | .acceptEnd | .call _ | .endEvent =>
    inferInstanceAs (Decidable True)

/-- What stays registered: `closeEpollClient` takes back the registration of what it closes. -/
def FacadeSystem.keeps (effects : List (ℕ × Effect)) (fd : ℕ) : Option (Fin n) :=
  if (fd, Effect.closed) ∈ effects then none else f.registered fd

/-- What is registered after a step: what a thread accepts, with its instance. -/
def FacadeSystem.register (a : WorkerAction) (effects : List (ℕ × Effect)) : ℕ → Option (Fin n) :=
  match a with
  | .accept fd => Function.update (f.keeps effects) fd (some t)
  | _ => f.keeps effects

/-- One step. -/
def FacadeSystem.next (options : Options) (f : FacadeSystem n) :
    SystemAction n → Option (FacadeSystem n)
  | .tick now => (f.system.next options (.tick now)).map fun s => { f with system := s }
  | .thread t a =>
    if f.Reports t a ∧ f.Adds a then -- "EPOLL_CTL_ADD failed"
      ((f.system.workers t).step options a).bind fun (_, effects) =>
        if ∀ effect ∈ effects, f.Controls t effect then
          (f.system.next options (.thread t a)).map fun s => ⟨s, f.register t a effects⟩
        else none -- "EPOLL_CTL_MOD failed", "EPOLL_CTL_DEL failed"
    else none

end Steps

/-- One step, as a step relation. -/
abbrev FacadeStep {n : ℕ} (options : Options) (f : FacadeSystem n) (a : SystemAction n)
    (f' : FacadeSystem n) : Prop := f.next options a = some f'

section Tied

variable {n : ℕ} {options : Options} {f f' : FacadeSystem n} {a : SystemAction n}

/-- Whatever a thread has to do with is registered with its instance, and what is registered is
open. -/
structure FacadeSystem.Tied (f : FacadeSystem n) : Prop where
  held : ∀ t fd, f.system.Holds t fd → f.registered fd = some t
  opened : ∀ fd, f.registered fd ≠ none → (f.system.sockets fd).isSome

theorem FacadeSystem.next_inv (h : FacadeStep options f a f') :
    SystemStep options f.system a f'.system ∧
      ((∃ now, a = .tick now ∧ f'.registered = f.registered) ∨
        ∃ t b w' effects, a = .thread t b ∧ f.Reports t b ∧
          (f.system.workers t).step options b = some (w', effects) ∧
          f'.registered = f.register t b effects) := by
  unfold FacadeStep FacadeSystem.next at h
  cases a with
  | tick now =>
    obtain ⟨s, hs, rfl⟩ := Option.map_eq_some_iff.mp h
    exact ⟨hs, Or.inl ⟨now, rfl, rfl⟩⟩
  | thread t b =>
    simp only at h
    split at h
    · rename_i hanswers
      obtain ⟨⟨w, effects⟩, hstep, h⟩ := Option.bind_eq_some_iff.mp h
      simp only at h
      split at h
      · obtain ⟨s, hs, rfl⟩ := Option.map_eq_some_iff.mp h
        exact ⟨hs, Or.inr ⟨t, b, w, effects, rfl, hanswers.1, hstep, rfl⟩⟩
      · cases h
    · cases h

theorem FacadeSystem.Tied.affine (htied : f.Tied) (h : FacadeStep options f a f') :
    f.system.Affine a := by
  obtain ⟨-, ⟨now, rfl, -⟩ | ⟨t, b, w', effects, rfl, hreports, -, -⟩⟩ := FacadeSystem.next_inv h
  · trivial
  · cases b with
    | epollWait events =>
      intro fd hfd u hu
      exact Option.some.inj ((htied.held u fd hu).symm.trans (hreports fd hfd))
    | _ => trivial

theorem FacadeSystem.register_of_not {t : Fin n} {b : WorkerAction} {effects : List (ℕ × Effect)}
    {fd : ℕ} (haccept : b ≠ .accept fd) (hclosed : (fd, Effect.closed) ∉ effects) :
    f.register t b effects fd = f.registered fd := by
  have hkeeps : f.keeps effects fd = f.registered fd := if_neg hclosed
  cases b with
  | accept fd' =>
    have hne : fd ≠ fd' := by
      rintro rfl
      exact haccept rfl
    exact (Function.update_of_ne hne _ _).trans hkeeps
  | _ => exact hkeeps

/-- What is registered after a step is accepted in it, or was registered and is not closed. -/
theorem FacadeSystem.register_ne_none {t : Fin n} {b : WorkerAction}
    {effects : List (ℕ × Effect)} {fd : ℕ} (h : f.register t b effects fd ≠ none) :
    b = .accept fd ∨ f.registered fd ≠ none ∧ (fd, Effect.closed) ∉ effects := by
  have hkeeps : f.keeps effects fd ≠ none →
      f.registered fd ≠ none ∧ (fd, Effect.closed) ∉ effects := by
    intro hne
    unfold FacadeSystem.keeps at hne
    split at hne
    · exact absurd rfl hne
    · exact ⟨hne, ‹_›⟩
  cases b with
  | accept fd' =>
    by_cases hfd : fd = fd'
    · exact Or.inl (congrArg WorkerAction.accept hfd.symm)
    · refine Or.inr (hkeeps ?_)
      rwa [show f.register t (.accept fd') effects fd = f.keeps effects fd from
        Function.update_of_ne hfd _ _] at h
  | _ => exact Or.inr (hkeeps h)

theorem Worker.step_accept {w w' : Worker} {effects : List (ℕ × Effect)} {fd : ℕ}
    (h : w.step options (.accept fd) = some (w', effects)) : effects = [] := by
  cases Worker.step_cases h with
  | accept fd events hphase => rfl

theorem System.not_open_of_closed {s s' : System n} {t : Fin n} {b : WorkerAction} {w' : Worker}
    {effects : List (ℕ × Effect)} {fd : ℕ} (h : SystemStep options s (.thread t b) s')
    (hstep : (s.workers t).step options b = some (w', effects))
    (hopen : s'.connection fd ≠ none) : (fd, Effect.closed) ∉ effects := by
  have hsome : (s'.sockets fd).isSome := by
    rw [Option.isSome_iff_ne_none]
    exact fun hnone => hopen (s'.connection_eq_none.mpr hnone)
  exact ((System.step_open h hstep fd).mp hsome).2

/-- **What every step keeps.** -/
theorem FacadeSystem.tied_step (hs : f.system.Sound) (hexclusive : f.system.Exclusive)
    (hexclusive' : f'.system.Exclusive) (htied : f.Tied) (h : FacadeStep options f a f') :
    f'.Tied := by
  obtain ⟨hst, hregistered⟩ := FacadeSystem.next_inv h
  refine ⟨fun u fd hheld => ?_, fun fd hne => ?_⟩
  · have hopen' := hexclusive'.opened u fd hheld
    rcases System.step_holds hs hst hheld with hold | ⟨events, rfl, hfd⟩
    · obtain ⟨now, rfl, heq⟩ | ⟨t, b, w', effects, rfl, -, hstep, heq⟩ := hregistered
      · rw [heq]
        exact htied.held u fd hold
      · have haccept : b ≠ .accept fd := by
          -- nobody has to do with a number that is not open
          rintro rfl
          obtain ⟨⟨-, -, hnone⟩, -⟩ := System.next_inv hst
          refine hexclusive.opened u fd hold ?_
          exact f.system.connection_eq_none.mpr (Option.isNone_iff_eq_none.mp hnone)
        rw [heq, register_of_not haccept (System.not_open_of_closed hst hstep hopen')]
        exact htied.held u fd hold
    · obtain ⟨now, ha, -⟩ | ⟨t, b, w', effects, ha, hreports, hstep, heq⟩ := hregistered
      · cases ha
      · obtain ⟨rfl, rfl⟩ := SystemAction.thread.inj ha
        rw [heq, register_of_not (by simp) (System.not_open_of_closed hst hstep hopen')]
        exact hreports fd hfd
  · obtain ⟨now, rfl, heq⟩ | ⟨t, b, w', effects, rfl, -, hstep, heq⟩ := hregistered
    · obtain ⟨-, hst⟩ := System.tick_inv hst
      rw [heq] at hne
      rw [hst]
      exact htied.opened fd hne
    · rw [heq] at hne
      rw [System.step_open hst hstep]
      rcases register_ne_none hne with rfl | ⟨hold, hclosed⟩
      · refine ⟨Or.inr rfl, ?_⟩
        rw [Worker.step_accept hstep]
        exact List.not_mem_nil
      · exact ⟨Or.inl (htied.opened fd hold), hclosed⟩

/-- The system is safe, and its threads keep to their instances. -/
structure FacadeSystem.Safe (f : FacadeSystem n) : Prop where
  system : f.system.Safe
  tied : f.Tied

theorem FacadeSystem.safe_step (h : FacadeStep options f a f') (hsafe : f.Safe) : f'.Safe := by
  have hsystem : f'.system.Safe :=
    System.safe_step (FacadeSystem.next_inv h).1 (hsafe.tied.affine h) hsafe.system
  exact ⟨hsystem, FacadeSystem.tied_step hsafe.system.kept.sound hsafe.system.exclusive
    hsystem.exclusive hsafe.tied h⟩

theorem FacadeSystem.safe_init (n : ℕ) (clock : ℤ) : (FacadeSystem.init n clock).Safe where
  system := System.safe_init n clock
  tied :=
    { held := fun t fd hheld => absurd rfl ((System.exclusive_init n clock).opened t fd hheld)
      opened := fun _ hne => absurd rfl hne }

end Tied

/-- **One instance for each thread.** In every run of any number of threads, every part of a response
goes to the connection that the request came from, a sweep closes only what has completed no request
for the time of the timeout, and what a thread has a record of or an event of to handle is open,
registered with its own instance, and in the hands of no other thread. -/
theorem facade_safe {n : ℕ} {options : Options} {clock : ℤ}
    {h : List (Transition (FacadeSystem n) (SystemAction n))} {f : FacadeSystem n}
    (hr : Run (FacadeStep options) (.init n clock) h f) :
    (∀ w ∈ f.system.written, ∀ incarnation ∈ w.sources, incarnation = w.target) ∧
      (∀ e ∈ h, SweepClosesIdle ⟨e.pre.system, e.act, e.post.system⟩) ∧
      ∀ t fd, f.system.Holds t fd → f.system.connection fd ≠ none ∧ f.registered fd = some t ∧
        ∀ u, f.system.Holds u fd → u = t := by
  have hsafe : f.Safe := hr.invariant (FacadeSystem.safe_init n clock) fun _ _ _ hst =>
    FacadeSystem.safe_step hst
  refine ⟨hsafe.system.owned.written, fun e he => ?_, fun t fd hheld => ?_⟩
  · obtain ⟨h', -, hr', hst⟩ := hr.of_mem he
    have hsafe' : e.pre.Safe := hr'.invariant (FacadeSystem.safe_init n clock) fun _ _ _ hst =>
      FacadeSystem.safe_step hst
    exact System.Safe.closesIdle (FacadeSystem.next_inv hst).1 hsafe'.system
  · exact ⟨hsafe.system.exclusive.opened t fd hheld, hsafe.tied.held t fd hheld,
      fun u hu => hsafe.system.exclusive.unique u t fd hu hheld⟩

/-- The run of two threads in which a shared instance would let one close what the other serves. -/
def instancesApart : List (SystemAction 2) :=
  (goesToWait 0 ++ acceptsClient 0 5 ++ serves 0 5).map (SystemAction.thread firstThread) ++
    (goesToWait 0 ++ acceptsClient 0 6 ++ serves 0 6).map (SystemAction.thread secondThread) ++
    [SystemAction.tick 60] ++
    (sweepsAndWaits 60 ++ acceptsClient 60 5).map (SystemAction.thread firstThread) ++
    (sweepsAndWaits 60).map (SystemAction.thread secondThread) ++
    (serves 60 5).map (SystemAction.thread firstThread)

theorem facade_safe_instancesApart :
    ∃ (h : List (Transition (FacadeSystem 2) (SystemAction 2))) (f : FacadeSystem 2),
      Run (FacadeStep wwwOptions) (.init 2 0) h f ∧
      (∃ w ∈ f.system.written, w.fd = 5 ∧ w.target = 2) ∧
      (∀ w ∈ f.system.written, ∀ incarnation ∈ w.sources, incarnation = w.target) ∧
      (∀ e ∈ h, SweepClosesIdle ⟨e.pre.system, e.act, e.post.system⟩) ∧
      ∀ t fd, f.system.Holds t fd → f.system.connection fd ≠ none ∧ f.registered fd = some t ∧
        ∀ u, f.system.Holds u fd → u = t := by
  obtain ⟨h, f, hr, hp⟩ := exists_run_of_any (FacadeSystem.next wwwOptions) (.init 2 0)
    instancesApart (p := fun f => decide (∃ w ∈ f.system.written, w.fd = 5 ∧ w.target = 2))
    (by decide +kernel)
  exact ⟨h, f, hr, of_decide_eq_true hp, facade_safe hr⟩

/-- **No `epoll_ctl` fails.** In every run with an instance for each thread, what a thread can do and
the kernel can answer is a step: what it accepts is not registered yet, what it re-arms or closes is
registered with its own instance, and neither `EPOLL_CTL_ADD` nor `EPOLL_CTL_MOD` nor
`EPOLL_CTL_DEL` ends the server. -/
theorem facade_epollCtl {n : ℕ} {options : Options} {clock : ℤ}
    {h : List (Transition (FacadeSystem n) (SystemAction n))} {f : FacadeSystem n}
    (hr : Run (FacadeStep options) (.init n clock) h f) (t : Fin n) (a : WorkerAction)
    (hanswers : f.system.Answers t a) (hreports : f.Reports t a)
    (hstep : ((f.system.workers t).step options a).isSome) :
    (∀ fd, a = .accept fd → f.registered fd = none) ∧
      (∀ w' effects, (f.system.workers t).step options a = some (w', effects) →
        ∀ effect ∈ effects, f.registered effect.1 = some t) ∧
      (f.next options (.thread t a)).isSome := by
  have hsafe : f.Safe := hr.invariant (FacadeSystem.safe_init n clock) fun _ _ _ hst =>
    FacadeSystem.safe_step hst
  have hnext := hsafe.system.exclusive.next_isSome hsafe.system.kept.sound hanswers hstep
  have hadds : ∀ fd, a = .accept fd → f.registered fd = none := by
    rintro fd rfl
    by_contra hne
    have hnone := hanswers.2.2
    rw [Option.isNone_iff_eq_none] at hnone
    have hopen := hsafe.tied.opened fd hne
    rw [hnone] at hopen
    cases hopen
  have hregistered : ∀ w' effects, (f.system.workers t).step options a = some (w', effects) →
      ∀ effect ∈ effects, f.registered effect.1 = some t := fun w' effects hstep effect he =>
    hsafe.tied.held t _ (System.effects_held hsafe.system.kept.sound hanswers hstep effect he)
  refine ⟨hadds, hregistered, ?_⟩
  obtain ⟨⟨w', effects⟩, hstep⟩ := Option.isSome_iff_exists.mp hstep
  have hadds' : f.Adds a := by
    cases a with
    | accept fd => exact hadds fd rfl
    | _ => trivial
  have hcontrols : ∀ effect ∈ effects, f.Controls t effect := by
    rintro ⟨fd, effect⟩ he
    have howned : f.registered fd = some t := hregistered w' effects hstep _ he
    cases effect with
    | rearmed => exact howned
    | closed => exact fun _ => howned
    | _ => trivial
  unfold FacadeSystem.next
  simp only
  rw [if_pos ⟨hreports, hadds'⟩, hstep, Option.bind_some, if_pos hcontrols, Option.isSome_map]
  exact hnext

/-- A thread up to where it re-arms the client that it has served. -/
def untilRearm : List (SystemAction 2) :=
  (goesToWait 0 ++ acceptsClient 0 5 ++ goesToWait 0 ++ receivesRequest 0 5 ++
    (sendsResponse 0).take 3).map (SystemAction.thread firstThread)

theorem facade_epollCtl_untilRearm :
    ∃ (h : List (Transition (FacadeSystem 2) (SystemAction 2))) (f : FacadeSystem 2),
      Run (FacadeStep wwwOptions) (.init 2 0) h f ∧
      (f.next wwwOptions (.thread firstThread (.call (localSys 0)))).isSome := by
  obtain ⟨h, f, hr, hp⟩ := exists_run_of_any (FacadeSystem.next wwwOptions) (.init 2 0) untilRearm
    (p := fun f => decide (f.system.Answers firstThread (.call (localSys 0))) &&
      ((f.system.workers firstThread).step wwwOptions (.call (localSys 0))).isSome)
    (by decide +kernel)
  obtain ⟨hanswers, hstep⟩ := Bool.and_eq_true_iff.mp hp
  obtain ⟨-, -, hnext⟩ := facade_epollCtl hr firstThread (.call (localSys 0))
    (of_decide_eq_true hanswers) trivial hstep
  exact ⟨h, f, hr, hnext⟩

end UbServer

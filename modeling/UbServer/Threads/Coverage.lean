import UbServer.Threads

/-!
# Whom the sweeps can reach

`acceptEpollConnection` puts a client into no queue: the first event with `EPOLLIN` does. The sweeps
can reach an open client exactly when a thread has taken up such an event of it, or a thread had a
record of its descriptor number left when it was accepted.

* `System.Covered`, `System.AllHeard`: what a state should be like at `epoll_wait`, and when it is.
* `covered_iff_allHeard`: they hold along the same runs.
* `silent_client_uncovered`: a client that says nothing is in no queue.
-/

namespace UbServer

open Runs QueueConnectionsType

section Coverage

variable {n : ℕ} {options : Options} {s s' : System n} {a : SystemAction n}

/-- A thread is in `epoll_wait`. -/
def System.Waiting (s : System n) : Prop := ∃ t, (s.workers t).phase = .waiting

/-- At `epoll_wait`, every open client is recorded in the queue of a thread. -/
def System.Covered (s : System n) : Prop :=
  s.Waiting → ∀ fd, s.connection fd ≠ none → s.Recorded fd

/-- At `epoll_wait`, every open client has been heard since it was accepted, or its number was
recorded then. -/
def System.AllHeard (s : System n) : Prop :=
  s.Waiting → ∀ fd, s.connection fd ≠ none → s.heard fd = true

/-- The open clients that have been heard are those recorded. -/
def System.Tracked (s : System n) : Prop :=
  ∀ fd, s.connection fd ≠ none → (s.heard fd = true ↔ s.Recorded fd)

/-- A thread that changes one record of its own changes nothing about other descriptors. -/
theorem System.recorded_of_ne {t : Fin n} {w' : Worker} {fd x : ℕ}
    {r : Option QueueConnectionElementType}
    (hworkers : s'.workers = Function.update s.workers t w')
    (hm : getConnectionByFd w'.queue = Function.update (s.records t) fd r) (hx : x ≠ fd) :
    s'.Recorded x ↔ s.Recorded x := by
  rw [System.recorded_iff, System.recorded_iff]
  refine exists_congr fun u => ?_
  rw [System.records_step hworkers hm, if_neg (fun h => hx h.2)]

theorem System.recorded_self {t : Fin n} {w' : Worker} {fd : ℕ} {c : QueueConnectionElementType}
    (hworkers : s'.workers = Function.update s.workers t w')
    (hm : getConnectionByFd w'.queue = Function.update (s.records t) fd (some c)) :
    s'.Recorded fd := by
  rw [System.recorded_iff]
  refine ⟨t, ?_⟩
  rw [System.records_step hworkers hm, if_pos ⟨rfl, rfl⟩]
  simp

theorem System.recorded_rests {t : Fin n} {w' : Worker} {fd : ℕ}
    (hworkers : s'.workers = Function.update s.workers t w') (hrests : (s.workers t).Rests w') :
    s'.Recorded fd ↔ s.Recorded fd := by
  rw [System.recorded_iff, System.recorded_iff, System.records_rests hworkers hrests]

theorem System.recorded_written {t : Fin n} {w' : Worker} {fd x : ℕ}
    {c : QueueConnectionElementType} (hworkers : s'.workers = Function.update s.workers t w')
    (hm : getConnectionByFd w'.queue = Function.update (s.records t) fd (some c))
    (hrecorded : s.Recorded fd) : s'.Recorded x ↔ s.Recorded x := by
  by_cases hx : x = fd
  · rw [hx]
    exact iff_of_true (System.recorded_self hworkers hm) hrecorded
  · exact System.recorded_of_ne hworkers hm hx

/-- **What every step keeps.** A record goes away only when its descriptor is closed. -/
theorem System.tracked_step (h : s.Stepped a s') (htracked : s.Tracked) : s'.Tracked := by
  intro x hopen
  cases h with
  | tick now hle => exact htracked x hopen
  | rested t a w' sockets hrests hsockets =>
    rw [System.recorded_rests (s := s) rfl hrests]
    exact htracked x (fun hnone => hopen ((hsockets x).trans hnone))
  | accepted t fd w' hrests h0 hnone =>
    rw [System.recorded_rests (s := s) rfl hrests]
    show Function.update s.heard fd (decide (s.Recorded fd)) x = true ↔ _
    by_cases hx : x = fd
    · rw [hx, Function.update_self, decide_eq_true_eq]
    · rw [Function.update_of_ne hx]
      refine htracked x fun hnone => hopen ?_
      simpa [System.connection, System.enter, System.setWorker, Function.update_of_ne hx] using hnone
  | swept t now fd c w' hp hp' hexpired hc hold hm =>
    obtain ⟨incarnation, hopen⟩ := Option.ne_none_iff_exists'.mp hopen
    obtain ⟨hx, hopen⟩ := System.connection_closed (s := s) rfl hopen
    rw [System.recorded_of_ne (s := s) rfl hm hx]
    exact htracked x (fun hnone => by cases hnone.symm.trans hopen)
  | taken t now mem fd slot w' hloop hloop' hm =>
    show Function.update s.heard fd true x = true ↔ _
    by_cases hx : x = fd
    · rw [hx, Function.update_self]
      exact iff_of_true rfl (System.recorded_self (s := s) rfl hm)
    · rw [Function.update_of_ne hx, System.recorded_of_ne (s := s) rfl hm hx]
      exact htracked x hopen
  | turned t sys e w' e' c c' sources written completed hturned hnoted =>
    have hrecorded : s.Recorded e.clientFd :=
      s.recorded_iff.mpr ⟨t, fun hnone => by cases hnone.symm.trans hturned.record⟩
    rw [System.recorded_written (s := s) rfl hturned.records hrecorded]
    exact htracked x hopen
  | updated t sys e w' e' socket hloop hpc hloop' hpc' hrecorded hm hsocket =>
    rw [System.recorded_written (s := s) rfl hm hrecorded]
    rw [System.connection_rearmed hsocket rfl] at hopen
    exact htracked x hopen
  | dequeued t sys e w' e' hloop hpc hloop' hpc' hm =>
    obtain ⟨incarnation, hopen⟩ := Option.ne_none_iff_exists'.mp hopen
    obtain ⟨hx, hopen⟩ := System.connection_closed (s := s) rfl hopen
    rw [System.recorded_of_ne (s := s) rfl hm hx]
    exact htracked x (fun hnone => by cases hnone.symm.trans hopen)

theorem System.covered_iff (htracked : s.Tracked) : s.Covered ↔ s.AllHeard := by
  refine forall_congr' fun _ => forall_congr' fun fd => ?_
  exact forall_congr' fun hopen => (htracked fd hopen).symm

theorem System.tracked_init (n : ℕ) (clock : ℤ) : (System.init n clock).Tracked :=
  fun _ hopen => absurd rfl hopen

end Coverage

/-- **Whom the sweeps can reach.** At every `epoll_wait` of a run every open client is recorded in
the queue of some thread exactly when at every `epoll_wait` of the run every open client has been
heard since it was accepted, or its number was recorded then. -/
theorem covered_iff_allHeard {n : ℕ} {options : Options} {clock : ℤ}
    {h : List (Transition (System n) (SystemAction n))} {s : System n}
    (hr : Run (SystemStep options) (.init n clock) h s) :
    Always System.Covered h ↔ Always System.AllHeard h := by
  have htracked : Always (fun s => s.Sound ∧ s.Tracked) h :=
    hr.always ⟨System.sound_init n clock, System.tracked_init n clock⟩ fun _ _ _ hst hkept =>
      ⟨System.step_sound hkept.1 hst, System.tracked_step (System.step_cases hkept.1 hst) hkept.2⟩
  refine forall_congr' fun e => forall_congr' fun he => ?_
  exact System.covered_iff (htracked e he).2

/-- A client connects and says nothing; later the thread goes to `epoll_wait` again. -/
def silentClient : List (SystemAction 2) :=
  (goesToWait 0 ++ acceptsClient 0 5).map (SystemAction.thread firstThread) ++ [SystemAction.tick 1000] ++
    (goesToWait 1000).map (SystemAction.thread firstThread)

theorem covered_iff_allHeard_silentClient :
    Always System.Covered (history (System.next wwwOptions) (.init 2 0) silentClient) ↔
      Always System.AllHeard (history (System.next wwwOptions) (.init 2 0) silentClient) :=
  covered_iff_allHeard (run_of_isSome (by decide +kernel))

/-- The client is open and in no queue. -/
theorem silent_client_uncovered :
    ∃ h s, Run (SystemStep wwwOptions) (.init 2 0) h s ∧ ¬ s.Covered := by
  obtain ⟨h, s, hr, hp⟩ := exists_run_of_any (System.next wwwOptions) (.init 2 0) silentClient
    (p := fun s => (s.workers 0).phase = .waiting ∧ s.connection 5 ≠ none ∧ ¬ s.Recorded 5)
    (by decide +kernel)
  obtain ⟨hwaiting, hopen, hrecorded⟩ := of_decide_eq_true hp
  exact ⟨h, s, hr, fun hcovered => hrecorded (hcovered ⟨0, hwaiting⟩ 5 hopen)⟩

end UbServer

import UbServer.CleanSlate
import UbServer.Threads.Exclusive

/-!
# The threads by themselves

The threads of the server have the descriptors and the clock in common, which they see in what the
kernel answers only: what a thread does with these answers is what a single thread does, whatever the
others do in between. So what holds along every run of a single thread holds of each thread of the server.

* `Thread.Plays`: the single thread that a thread of the server is.
* `Thread.Plays.step`, `Thread.Plays.others`: a step of the thread itself, and any other step.
* `System.thread_run`: the run of each thread in a run of the server.
-/

namespace UbServer

open Runs QueueConnectionsType

section Threads

variable {n : ℕ} {options : Options} {s s' : System n} {a : SystemAction n} {b : WorkerAction}
  {t : Fin n} {v : Thread}

/-- The single thread `v` is the thread `t` of the server, which may not have looked at the clock for a
while. -/
structure Thread.Plays (v : Thread) (s : System n) (t : Fin n) : Prop where
  worker : v.worker = s.workers t
  clock : v.clock ≤ s.clock

theorem WorkerAction.Timely.of_le {clock clock' : ℤ} (h : b.Timely clock)
    (hnow : b.clock clock = clock) (hle : clock' ≤ clock) :
    b.Timely clock' ∧ b.clock clock' ≤ clock := by
  cases b with
  | readTime now => exact ⟨⟨hle.trans hnow.ge, trivial⟩, hnow.le⟩
  | nextEvent now mem => exact ⟨⟨hle.trans hnow.ge, trivial⟩, hnow.le⟩
  | call sys => exact ⟨⟨hle.trans hnow.ge, trivial⟩, hnow.le⟩
  | _ => exact ⟨⟨le_rfl, h.2⟩, hle⟩

theorem Thread.plays_init (n : ℕ) (clock : ℤ) (t : Fin n) :
    (Thread.init clock).Plays (System.init n clock) t := ⟨rfl, le_rfl⟩

/-- **A step of the thread** is one that it could make by itself. -/
theorem Thread.Plays.step (hs : s.Sound) (h : SystemStep options s (.thread t b) s')
    (hv : v.Plays s t) : ∃ v', ThreadStep options v b v' ∧ v'.Plays s' t := by
  have hclock := ((System.step_cases hs h).grows 0).1
  obtain ⟨hanswers, -⟩ := System.next_inv h
  obtain ⟨w', effects, hstep, -, hworkers⟩ := System.step_workers h
  obtain ⟨htimely, hlate⟩ := (hanswers.timely hs).of_le hanswers.1 hv.clock
  refine ⟨⟨b.clock v.clock, w', v.beforeEvent b⟩, ?_, ?_, hlate.trans hclock⟩
  · unfold ThreadStep Thread.next
    rw [if_pos htimely, hv.worker, hstep]
    rfl
  · rw [hworkers, Function.update_self]

/-- **Any other step** leaves the thread where it is. -/
theorem Thread.Plays.others (hs : s.Sound) (h : SystemStep options s a s')
    (ha : ∀ b, a ≠ .thread t b) (hv : v.Plays s t) : v.Plays s' t := by
  have hstepped := System.step_cases hs h
  exact ⟨hv.worker.trans (hstepped.others ha).1.symm, hv.clock.trans (hstepped.grows 0).1⟩

/-- **The run of a thread.** In a run of the server each thread makes a run of a single thread. -/
theorem System.thread_run {clock : ℤ} {h : List (Transition (System n) (SystemAction n))}
    (hr : Run (SystemStep options) (.init n clock) h s) (t : Fin n) :
    ∃ h' v, Run (ThreadStep options) (.init clock) h' v ∧ v.Plays s t := by
  induction hr with
  | nil => exact ⟨[], _, .nil, Thread.plays_init n clock t⟩
  | @snoc h s s' a hr hst ih =>
    obtain ⟨h', v, hrun, hv⟩ := ih
    have hs : s.Sound := hr.invariant (System.sound_init n clock) fun _ _ _ hst hs =>
      System.step_sound hs hst
    by_cases ha : ∃ b, a = .thread t b
    · obtain ⟨b, rfl⟩ := ha
      obtain ⟨v', hstep, hv'⟩ := hv.step hs hst
      exact ⟨_, v', hrun.snoc hstep, hv'⟩
    · exact ⟨h', v, hrun, hv.others hs hst fun b hb => ha ⟨b, hb⟩⟩

end Threads

end UbServer

import UbServer.Threads

/-!
# Whom a response goes to

A response goes to the incarnation of the descriptor that the request was received from, as long as
`accept` hands out no number of which a thread holds a part of a request. A sweep in another thread
can close such a descriptor in the middle of a response.

* `System.QuietAccept`: the condition on a step.
* `sent_to_source`: what is sent along a run whose steps meet it.
* `sent_to_successor`: a run with two threads in which the rest of a response goes to a later client.
-/

namespace UbServer

open Runs QueueConnectionsType

section Sources

variable {n : ℕ} {options : Options} {s s' : System n} {a : SystemAction n}

/-- `accept` returns no number of a client from which a thread has received something in a loop that
goes on. -/
def System.QuietAccept (s : System n) : SystemAction n → Prop
  | .thread _ (.accept fd) =>
    ∀ u, ∀ e ∈ s.loop u, e.clientFd = fd → e.pc ≠ .ended → s.sources u = []
  | _ => True

instance (s : System n) : (a : SystemAction n) → Decidable (s.QuietAccept a)
  | .thread _ (.accept fd) => inferInstanceAs (Decidable
      (∀ u, ∀ e ∈ s.loop u, e.clientFd = fd → e.pc ≠ .ended → s.sources u = []))
  | .tick _ | .thread _ (.readTime _) | .thread _ .sweep | .thread _ (.epollWait _) |
    .thread _ (.nextEvent ..) | .thread _ .acceptEnd | .thread _ (.call _) |
    .thread _ .endEvent => inferInstanceAs (Decidable True)

/-- What a thread has received in a loop that goes on came from the connection that is still open,
and so did the request for everything written. -/
structure System.Owned (s : System n) : Prop where
  sources : ∀ u, ∀ e ∈ s.loop u, e.pc ≠ .ended → ∀ incarnation ∈ s.sources u,
    ∀ target, s.connection e.clientFd = some target → incarnation = target
  written : ∀ w ∈ s.written, ∀ incarnation ∈ w.sources, incarnation = w.target

/-- What is written goes to the connection that is open, for what has been received in the loop. -/
theorem System.Stepped.written (h : s.Stepped a s') {w : Written} (hw : w ∈ s'.written) :
    w ∈ s.written ∨ ∃ u e, s.loop u = some e ∧ e.pc ≠ .ended ∧
      s.connection e.clientFd = some w.target ∧ w.sources = s.sources u := by
  cases h with
  | turned t sys e w' e' c c' sources written completed hturned hnoted =>
    cases hnoted with
    | sent incarnation hopen =>
      rcases List.mem_cons.mp hw with rfl | hw
      · exact Or.inr ⟨t, e, hturned.loop, hturned.running, hopen, rfl⟩
      · exact Or.inl hw
    | _ => exact Or.inl hw
  | _ => exact Or.inl hw

/-- **What every quiet step keeps.** -/
theorem System.owned_step (hst : SystemStep options s a s') (hg : s.QuietAccept a)
    (h : s.Sound ∧ s.Owned) : s'.Sound ∧ s'.Owned := by
  obtain ⟨hs, hsources, hwritten⟩ := h
  have hstepped := System.step_cases hs hst
  refine ⟨System.step_sound hs hst, fun u e he hpc incarnation hk target htarget => ?_,
    fun w hw incarnation hk => ?_⟩
  · rcases hstepped.sources he hpc hk with hnow | ⟨e₀, he₀, hpc₀, hfd, hk₀⟩
    · exact Option.some.inj (hnow.symm.trans htarget)
    · rcases hstepped.connection htarget with hopen | ⟨t, rfl, -, -, -⟩
      · exact hsources u e₀ he₀ hpc₀ incarnation hk₀ target (hfd ▸ hopen)
      · rw [hg u e₀ he₀ hfd hpc₀] at hk₀
        cases hk₀
  · rcases hstepped.written hw with hw | ⟨u, e, he, hpc, hopen, heq⟩
    · exact hwritten w hw incarnation hk
    · exact hsources u e he hpc incarnation (heq ▸ hk) w.target hopen

theorem System.owned_init (n : ℕ) (clock : ℤ) : (System.init n clock).Owned where
  sources _ _ he := by cases he
  written _ hw := absurd hw List.not_mem_nil

end Sources

/-- **Whom a response goes to.** Along a run in which `accept` hands out no number of which a thread
holds a part of a request, every part of a response goes to the connection from which every byte
received in its loop came. -/
theorem sent_to_source {n : ℕ} {options : Options} {clock : ℤ}
    {h : List (Transition (System n) (SystemAction n))} {s : System n}
    (hr : Run (SystemStep options) (.init n clock) h s) (hg : Guarded System.QuietAccept h) :
    ∀ w ∈ s.written, ∀ incarnation ∈ w.sources, incarnation = w.target := by
  have howned : s.Sound ∧ s.Owned :=
    hr.invariant_of_guard ⟨System.sound_init n clock, System.owned_init n clock⟩
      (fun _ _ _ hst hga => System.owned_step hst hga) hg
  exact howned.2.written

/-- A client is served and closed by the sweep; another gets its number and is served by the other
thread. -/
def numberReused : List (SystemAction 2) :=
  (goesToWait 0 ++ acceptsClient 0 5 ++ serves 0 5).map (SystemAction.thread firstThread) ++
    [SystemAction.tick 60] ++
    (sweepsAndWaits 60 ++ acceptsClient 60 5).map (SystemAction.thread firstThread) ++
    (serves 60 5).map (SystemAction.thread secondThread)

theorem sent_to_source_numberReused :
    ∃ s : System 2, (∃ w ∈ s.written, w.target = 2) ∧
      ∀ w ∈ s.written, ∀ incarnation ∈ w.sources, incarnation = w.target := by
  obtain ⟨h, s, hr, hg, hp⟩ := exists_run_of_guarded (System.next wwwOptions) System.QuietAccept
    (.init 2 0) numberReused (p := fun s => decide (∃ w ∈ s.written, w.target = 2))
    (by decide +kernel)
  exact ⟨s, of_decide_eq_true hp, sent_to_source hr hg⟩

/-- The first thread has served a client a minute ago. While the second sends it a response, the
first closes the descriptor in its sweep and accepts another client with the same number. -/
def numberReusedInResponse : List (SystemAction 2) :=
  (goesToWait 0 ++ acceptsClient 0 5 ++ serves 0 5).map (SystemAction.thread firstThread) ++
    [SystemAction.tick 60] ++
    (goesToWait 60 ++ receivesRequest 60 5).map (SystemAction.thread secondThread) ++
    [SystemAction.thread secondThread (.call { localSys 60 with send := .sent 10 })] ++
    (sweepsAndWaits 60 ++ acceptsClient 60 5).map (SystemAction.thread firstThread) ++
    [SystemAction.thread secondThread (.call { localSys 60 with send := .sent 1024 })]

/-- The rest of the response goes to the later client. -/
theorem sent_to_successor :
    ∃ h s, Run (SystemStep wwwOptions) (.init 2 0) h s ∧
      ∃ w ∈ s.written, ∃ incarnation ∈ w.sources, incarnation ≠ w.target := by
  obtain ⟨h, s, hr, hp⟩ := exists_run_of_any (System.next wwwOptions) (.init 2 0)
    numberReusedInResponse
    (p := fun s => decide (∃ w ∈ s.written, ∃ incarnation ∈ w.sources, incarnation ≠ w.target))
    (by decide +kernel)
  exact ⟨h, s, hr, of_decide_eq_true hp⟩

end UbServer

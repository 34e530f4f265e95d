import UbServer.Threads

/-!
# What the sweep closes

The sweep of a thread closes a connection that has completed no request for `KEEP_ALIVE_TIMEOUT`
seconds, as long as no other thread has a younger record of its descriptor. The time in the record of
one thread says nothing about the requests that the others have served.

* `System.SweepsOldest`: the condition on a step.
* `sweep_closes_idle`: what a sweep closes along a run whose steps meet it.
* `sweep_closes_served`: a run with two threads in which the sweep of one closes a connection that
  the other has just served.
-/

namespace UbServer

open Runs QueueConnectionsType

section Stamps

variable {n : ℕ} {options : Options} {s s' : System n} {a : SystemAction n}

/-- The sweep closes no descriptor of which another thread has a record that is younger, or that is
to be closed after its request. -/
def System.SweepsOldest (s : System n) : SystemAction n → Prop
  | .thread t .sweep =>
    match (s.workers t).phase with
    | .sweeping now => ∀ fd ∈ (s.workers t).queue.expired now, ∀ u, u ≠ t →
        ∀ c ∈ s.records u fd,
          difftime now c.priorityTime ≥ keepAliveTimeout ∧ c.state ≠ .doneForClose
    | _ => True
  | _ => True

instance (s : System n) (a : SystemAction n) : Decidable (s.SweepsOldest a) := by
  unfold System.SweepsOldest
  split
  · split <;> infer_instance
  · infer_instance

/-- What a sweep closes has completed no request in the last `KEEP_ALIVE_TIMEOUT` seconds. -/
def SweepClosesIdle (e : Transition (System n) (SystemAction n)) : Prop :=
  ∀ t, e.act = .thread t .sweep → ∀ fd incarnation, e.pre.connection fd = some incarnation →
    e.post.connection fd = none → ∀ time, e.pre.completed fd incarnation = some time →
      difftime e.pre.clock time ≥ keepAliveTimeout

/-- The record accounts for a completion at the time: it was renewed since, or is to be closed. -/
def Accounts (time : ℤ) (c : QueueConnectionElementType) : Prop :=
  time ≤ c.priorityTime ∨ c.state = .doneForClose

/-- A record that is to be closed is the one of its thread's loop, which is at the `switch`. -/
def System.Closing (s : System n) : Prop :=
  ∀ t fd c, s.records t fd = some c → c.state = .doneForClose →
    ∃ e, s.loop t = some e ∧ e.clientFd = fd ∧ e.pc = .switch

/-- The ledger knows no incarnation that has not been accepted. -/
structure System.Counted (s : System n) : Prop where
  connection : ∀ fd incarnation, s.connection fd = some incarnation → incarnation ≤ s.accepts fd
  sources : ∀ t e, s.loop t = some e → e.pc ≠ .ended → ∀ incarnation ∈ s.sources t,
    incarnation ≤ s.accepts e.clientFd
  completed : ∀ fd incarnation time, s.completed fd incarnation = some time →
    incarnation ≤ s.accepts fd ∧ time ≤ s.clock

/-- Some thread's record accounts for every completed request of an open connection. -/
def System.Accounted (s : System n) : Prop :=
  ∀ fd incarnation, s.connection fd = some incarnation →
    ∀ time, s.completed fd incarnation = some time →
      ∃ t c, s.records t fd = some c ∧ Accounts time c

/-- A thread in a loop has no record to be closed but its client's, and that only at the `switch`. -/
theorem System.Closing.switch (h : s.Closing) {u : Fin n} {e : EventLoop} {fd : ℕ}
    {c : QueueConnectionElementType} (hloop : s.loop u = some e) (hc : s.records u fd = some c)
    (hstate : c.state = .doneForClose) : e.clientFd = fd ∧ e.pc = .switch := by
  obtain ⟨e₁, he₁, hfd, hswitch⟩ := h u fd c hc hstate
  obtain rfl := Option.some.inj (hloop.symm.trans he₁)
  exact ⟨hfd, hswitch⟩

theorem System.Closing.ended (h : s.Closing) {u : Fin n} {fd : ℕ} {c : QueueConnectionElementType}
    (hended : ∀ e ∈ s.loop u, e.pc = .ended) (hc : s.records u fd = some c) :
    c.state ≠ .doneForClose := by
  intro hstate
  obtain ⟨e, he, -, hswitch⟩ := h u fd c hc hstate
  rw [hended e he] at hswitch
  cases hswitch

theorem System.Closing.loop_none (h : s.Closing) {u : Fin n} {fd : ℕ}
    {c : QueueConnectionElementType} (hloop : s.loop u = none) (hc : s.records u fd = some c) :
    c.state ≠ .doneForClose := by
  refine h.ended (fun e he => ?_) hc
  rw [hloop] at he
  cases he

/-- A record keeps accounting for what it accounts for, as long as its connection is open. -/
theorem System.Stepped.accounts (h : s.Stepped a s') (hclosing : s.Closing) {u : Fin n} {fd : ℕ}
    {c : QueueConnectionElementType} {time : ℤ} (hc : s.records u fd = some c)
    (htime : Accounts time c) (hle : time ≤ s.clock) (hopen : s'.connection fd ≠ none) :
    ∃ c', s'.records u fd = some c' ∧ Accounts time c' := by
  cases h with
  | tick now hclock => exact ⟨c, hc, htime⟩
  | rested t a w' sockets hrests hsockets =>
    exact ⟨c, (congrFun₂ (System.records_rests rfl hrests) u fd).trans hc, htime⟩
  | accepted t fd' w' hrests h0 hnone =>
    exact ⟨c, (congrFun₂ (System.records_rests rfl hrests) u fd).trans hc, htime⟩
  | swept t now fd' c' w' hp hp' hexpired hc' hold hm =>
    rw [System.records_step rfl hm]
    by_cases htouched : u = t ∧ fd = fd'
    · refine absurd ?_ hopen
      rw [htouched.2]
      simp [System.connection]
    · rw [if_neg htouched]
      exact ⟨c, hc, htime⟩
  | taken t now mem fd' slot w' hloop hloop' hm =>
    rw [System.records_step rfl hm]
    by_cases htouched : u = t ∧ fd = fd'
    · obtain ⟨rfl, rfl⟩ := htouched
      rw [if_pos ⟨rfl, rfl⟩, hc]
      exact ⟨c, rfl, htime⟩
    · rw [if_neg htouched]
      exact ⟨c, hc, htime⟩
  | turned t sys e w' e' c₀ c' sources written completed hturned hnoted =>
    rw [System.records_step rfl hturned.records]
    by_cases htouched : u = t ∧ fd = e.clientFd
    · obtain ⟨rfl, rfl⟩ := htouched
      rw [if_pos ⟨rfl, rfl⟩]
      obtain rfl := Option.some.inj (hturned.record.symm.trans hc)
      rcases htime with htime | hstate
      · exact ⟨c', rfl, Or.inl (hturned.same.2 ▸ htime)⟩
      · -- the loop would be at the `switch`, and the step would close
        exact absurd ⟨(hclosing.switch hturned.loop hc hstate).2, hstate⟩ hturned.notClosing
    · rw [if_neg htouched]
      exact ⟨c, hc, htime⟩
  | updated t sys e w' e' socket hloop hpc hloop' hpc' hrecorded hm hsocket =>
    rw [System.records_step rfl hm]
    by_cases htouched : u = t ∧ fd = e.clientFd
    · rw [if_pos htouched]
      exact ⟨_, rfl, Or.inl hle⟩
    · rw [if_neg htouched]
      exact ⟨c, hc, htime⟩
  | dequeued t sys e w' e' hloop hpc hloop' hpc' hm =>
    rw [System.records_step rfl hm]
    by_cases htouched : u = t ∧ fd = e.clientFd
    · refine absurd ?_ hopen
      rw [htouched.2]
      simp [System.connection]
    · rw [if_neg htouched]
      exact ⟨c, hc, htime⟩

/-- A completion is noted for what the thread has received, and its record accounts for it. -/
theorem System.Stepped.completed (h : s.Stepped a s') {fd incarnation : ℕ} {time : ℤ}
    (hc : s'.completed fd incarnation = some time) :
    s.completed fd incarnation = some time ∨ ∃ t e c', s.loop t = some e ∧
      e.pc ≠ .ended ∧ e.clientFd = fd ∧ incarnation ∈ s.sources t ∧ time = s.clock ∧
      s'.records t fd = some c' ∧ Accounts time c' := by
  -- what `complete` notes
  have hcomplete : ∀ {t fd'}, s.complete t fd' fd incarnation = some time →
      s.completed fd incarnation = some time ∨
        fd' = fd ∧ incarnation ∈ s.sources t ∧ time = s.clock := by
    intro t fd' hc
    unfold System.complete at hc
    by_cases hfd : fd = fd'
    · subst hfd
      rw [Function.update_self] at hc
      by_cases hin : incarnation ∈ s.sources t
      · rw [if_pos hin] at hc
        exact Or.inr ⟨rfl, hin, (Option.some.inj hc).symm⟩
      · rw [if_neg hin] at hc
        exact Or.inl hc
    · rw [Function.update_of_ne hfd] at hc
      exact Or.inl hc
  cases h with
  | turned t sys e w' e' c c' sources written completed hturned hnoted =>
    cases hnoted with
    | logged hstate =>
      rcases hcomplete hc with hc | ⟨rfl, hin, htime⟩
      · exact Or.inl hc
      · refine Or.inr ⟨t, e, c', hturned.loop, hturned.running, rfl, hin, htime, ?_, Or.inr hstate⟩
        rw [System.records_step rfl hturned.records, if_pos ⟨rfl, rfl⟩]
    | _ => exact Or.inl hc
  | updated t sys e w' e' socket hloop hpc hloop' hpc' hrecorded hm hsocket =>
    rcases hcomplete hc with hc | ⟨rfl, hin, htime⟩
    · exact Or.inl hc
    · refine Or.inr ⟨t, e, freshConnection e.clientFd s.clock sys.mem, hloop, hpc, rfl, hin, htime,
        ?_, Or.inl htime.le⟩
      rw [System.records_step rfl hm, if_pos ⟨rfl, rfl⟩]
  | _ => exact Or.inl hc

/-- **Only the record of the loop is to be closed.** -/
theorem System.closing_step (h : s.Stepped a s') (hclosing : s.Closing) : s'.Closing := by
  intro u fd c hc hstate
  by_cases hu : ∃ b, a = .thread u b
  · obtain ⟨b, rfl⟩ := hu
    cases h with
    | rested t a w' sockets hrests hsockets =>
      rw [System.records_rests (s := s) rfl hrests] at hc
      exact absurd hstate (hclosing.ended hrests.ended hc)
    | accepted t fd' w' hrests h0 hopen =>
      rw [System.records_rests (s := s) rfl hrests] at hc
      exact absurd hstate (hclosing.ended hrests.ended hc)
    | swept t now fd' c' w' hp hp' hexpired hc' hold hm =>
      have hloop : s.loop u = none := by
        unfold System.loop
        rw [hp]
        rfl
      rw [System.records_step (s := s) rfl hm] at hc
      split at hc
      · cases hc
      · exact absurd hstate (hclosing.loop_none hloop hc)
    | taken t now mem fd' slot w' hloop hloop' hm =>
      rw [System.records_step (s := s) rfl hm] at hc
      split at hc
      · obtain rfl := Option.some.inj hc
        cases hold : s.records u fd' with
        | some c₀ =>
          rw [hold] at hstate
          exact absurd hstate (hclosing.loop_none hloop hold)
        | none =>
          -- a fresh record is to be received
          rw [hold] at hstate
          cases hstate
      · exact absurd hstate (hclosing.loop_none hloop hc)
    | turned t sys e w' e' c₀ c' sources written completed hturned hnoted =>
      rw [System.records_step (s := s) rfl hturned.records] at hc
      split at hc
      · rename_i htouched
        obtain rfl := Option.some.inj hc
        refine ⟨e', (s.loop_setWorker u w').trans hturned.loop', ?_, hturned.closing ?_ hstate⟩
        · exact hturned.client.trans htouched.2.symm
        · exact fun hstate₀ => (hclosing.switch hturned.loop hturned.record hstate₀).2
      · rename_i huntouched
        exact absurd ⟨rfl, (hclosing.switch hturned.loop hc hstate).1.symm⟩ huntouched
    | updated t sys e w' e' socket hloop hpc hloop' hpc' hrecorded hm hsocket =>
      rw [System.records_step (s := s) rfl hm] at hc
      split at hc
      · obtain rfl := Option.some.inj hc
        cases hstate
      · rename_i huntouched
        exact absurd ⟨rfl, (hclosing.switch hloop hc hstate).1.symm⟩ huntouched
    | dequeued t sys e w' e' hloop hpc hloop' hpc' hm =>
      rw [System.records_step (s := s) rfl hm] at hc
      split at hc
      · cases hc
      · rename_i huntouched
        exact absurd ⟨rfl, (hclosing.switch hloop hc hstate).1.symm⟩ huntouched
  · obtain ⟨hworkers, -⟩ := h.others (u := u) fun b hb => hu ⟨b, hb⟩
    unfold System.records at hc
    rw [hworkers] at hc
    obtain ⟨e, he, hfd, hswitch⟩ := hclosing u fd c hc hstate
    refine ⟨e, ?_, hfd, hswitch⟩
    unfold System.loop
    rw [hworkers]
    exact he

theorem System.counted_step (h : s.Stepped a s') (hcounted : s.Counted) : s'.Counted := by
  have hconnection : ∀ fd incarnation, s'.connection fd = some incarnation →
      incarnation ≤ s'.accepts fd := by
    intro fd incarnation hopen
    rcases h.connection hopen with hopen | ⟨t, -, -, -, hnew⟩
    · exact (hcounted.connection fd incarnation hopen).trans (h.grows fd).2
    · exact hnew.ge
  refine ⟨hconnection, fun t e he hpc incarnation hk => ?_, fun fd incarnation time hc => ?_⟩
  · rcases h.sources he hpc hk with hopen | ⟨e₀, he₀, hpc₀, hfd, hk⟩
    · exact hconnection _ _ hopen
    · rw [← hfd]
      exact (hcounted.sources t e₀ he₀ hpc₀ incarnation hk).trans (h.grows _).2
  · obtain ⟨hclock, haccepts⟩ := h.grows fd
    rcases h.completed hc with hc | ⟨t, e, c', he, hpc, rfl, hin, rfl, -⟩
    · obtain ⟨hle, htime⟩ := hcounted.completed fd incarnation time hc
      exact ⟨hle.trans haccepts, htime.trans hclock⟩
    · exact ⟨(hcounted.sources t e he hpc incarnation hin).trans haccepts, hclock⟩

/-- **What every step keeps.** -/
theorem System.accounted_step (h : s.Stepped a s') (hclosing : s.Closing) (hcounted : s.Counted)
    (haccounted : s.Accounted) : s'.Accounted := by
  intro fd incarnation hopen time hc
  have hne : s'.connection fd ≠ none := by
    rw [hopen]
    simp
  rcases h.completed hc with hc | ⟨t, e, c', he, hpc, hfd, hin, htime, hc', haccounts⟩
  · rcases h.connection hopen with hopen | ⟨t, -, -, rfl, -⟩
    · obtain ⟨u, c, hrecord, haccounts⟩ := haccounted fd incarnation hopen time hc
      have hle := (hcounted.completed fd incarnation time hc).2
      obtain ⟨c', hc', haccounts'⟩ := h.accounts hclosing hrecord haccounts hle hne
      exact ⟨u, c', hc', haccounts'⟩
    · -- a connection that has just been accepted has completed nothing
      exact absurd (hcounted.completed fd _ time hc).1 (by omega)
  · exact ⟨t, c', hc', haccounts⟩

/-- What the completions and the records have to do with each other. -/
structure System.Kept (s : System n) : Prop where
  sound : s.Sound
  closing : s.Closing
  counted : s.Counted
  accounted : s.Accounted

theorem System.kept_step (hst : SystemStep options s a s') (h : s.Kept) : s'.Kept := by
  have hstepped := System.step_cases h.sound hst
  exact ⟨System.step_sound h.sound hst, System.closing_step hstepped h.closing,
    System.counted_step hstepped h.counted,
    System.accounted_step hstepped h.closing h.counted h.accounted⟩

theorem System.kept_init (n : ℕ) (clock : ℤ) : (System.init n clock).Kept where
  sound := System.sound_init n clock
  closing _ _ _ hc := by cases hc
  counted :=
    { connection := fun _ _ h => by cases h
      sources := fun _ _ he => by cases he
      completed := fun _ _ _ h => by cases h }
  accounted _ _ h := by cases h

theorem System.sweepsOldest_idle (hst : SystemStep options s a s') (hg : s.SweepsOldest a)
    (h : s.Kept) : SweepClosesIdle ⟨s, a, s'⟩ := by
  rintro t rfl fd incarnation hopen hclosed time htime
  cases System.step_cases h.sound hst with
  | rested t a w' sockets hrests hsockets =>
    cases (hopen.symm.trans (hsockets fd).symm).trans hclosed
  | swept t now fd' c w' hp hp' hexpired hc hold hm =>
    have hfd : fd = fd' := by
      by_contra hfd
      simp only [System.connection, Function.update_of_ne hfd] at hclosed
      rw [show s.connection fd = none from hclosed] at hopen
      cases hopen
    subst hfd
    obtain ⟨u, c₁, hc₁, haccounts⟩ := h.accounted fd incarnation hopen time htime
    have hold₁ : difftime now c₁.priorityTime ≥ keepAliveTimeout ∧ c₁.state ≠ .doneForClose := by
      by_cases hu : u = t
      · subst hu
        obtain rfl := Option.some.inj (hc.symm.trans hc₁)
        refine ⟨hold, h.closing.loop_none ?_ hc⟩
        rw [System.loop, hp]
        rfl
      · simp only [System.SweepsOldest, hp] at hg
        exact hg fd hexpired u hu c₁ hc₁
    have hnow : now ≤ s.clock := (h.sound.workers t).sweep now hp
    rcases haccounts with htime₁ | hstate
    · have hle := hold₁.1
      unfold difftime at hle ⊢
      show s.clock - time ≥ keepAliveTimeout
      omega
    · exact absurd hstate hold₁.2

end Stamps

/-- **What the sweep closes.** Along a run in which no sweep closes a descriptor of which another
thread has a younger record, whatever a sweep closes has completed no request in any thread in the
last `KEEP_ALIVE_TIMEOUT` seconds. -/
theorem sweep_closes_idle {n : ℕ} {options : Options} {clock : ℤ}
    {h : List (Transition (System n) (SystemAction n))} {s : System n}
    (hr : Run (SystemStep options) (.init n clock) h s) (hg : Guarded System.SweepsOldest h) :
    ∀ e ∈ h, SweepClosesIdle e :=
  hr.forall_steps (System.kept_init n clock) (fun _ _ _ hst _ => System.kept_step hst) hg
    fun _ _ _ hst hga hkept => System.sweepsOldest_idle hst hga hkept

/-- Both threads serve a client, and a minute later the sweep of the first closes it. -/
def idleClosed : List (SystemAction 2) :=
  (goesToWait 0 ++ acceptsClient 0 5 ++ serves 0 5).map (SystemAction.thread firstThread) ++
    (serves 0 5).map (SystemAction.thread secondThread) ++ [SystemAction.tick 60] ++
    (sweepsAndWaits 60).map (SystemAction.thread firstThread)

theorem sweep_closes_idle_afterAMinute :
    ∃ h s, Run (SystemStep wwwOptions) (.init 2 0) h s ∧ s.completed 5 1 = some 0 ∧
      s.connection 5 = none ∧ ∀ e ∈ h, SweepClosesIdle e := by
  obtain ⟨h, s, hr, hg, hp⟩ := exists_run_of_guarded (System.next wwwOptions) System.SweepsOldest
    (.init 2 0) idleClosed (p := fun s => s.completed 5 1 = some 0 ∧ s.connection 5 = none)
    (by decide +kernel)
  obtain ⟨hc, hclosed⟩ := of_decide_eq_true hp
  exact ⟨h, s, hr, hc, hclosed, sweep_closes_idle hr hg⟩

/-- The first thread serves a client, and the second serves it 50 seconds later. After 10 more
seconds the sweep of the first is about to begin. -/
def servedElsewhere : List (SystemAction 2) :=
  (goesToWait 0 ++ acceptsClient 0 5 ++ serves 0 5).map (SystemAction.thread firstThread) ++
    [SystemAction.tick 50] ++ (serves 50 5).map (SystemAction.thread secondThread) ++
    [SystemAction.tick 60] ++ [SystemAction.thread firstThread (.readTime 60)]

/-- The sweep closes the client 10 seconds after its last request was completed. -/
theorem sweep_closes_served :
    ∃ h s, Run (SystemStep wwwOptions) (.init 2 0) h s ∧ ∃ e ∈ h, ¬ SweepClosesIdle e := by
  obtain ⟨h, s, hr, hp⟩ := exists_run_of_any (System.next wwwOptions) (.init 2 0) servedElsewhere
    (p := fun s => s.clock = 60 ∧ s.connection 5 = some 1 ∧ s.completed 5 1 = some 50 ∧
      (s.next wwwOptions (.thread 0 .sweep)).any fun s' => s'.connection 5 = none)
    (by decide +kernel)
  obtain ⟨hclock, hopen, hcompleted, hswept⟩ := of_decide_eq_true hp
  obtain ⟨s', hst, hclosed⟩ := (Option.any_eq_true ..).mp hswept
  refine ⟨_, s', hr.snoc hst, _, List.mem_append_right _ (List.mem_singleton_self _), fun hidle => ?_⟩
  have hold := hidle 0 rfl 5 1 hopen (of_decide_eq_true hclosed) 50 hcompleted
  rw [show (⟨s, _, s'⟩ : Transition (System 2) (SystemAction 2)).pre.clock = 60 from hclock] at hold
  exact absurd hold (by decide)

end UbServer

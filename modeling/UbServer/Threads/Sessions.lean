import UbServer.Session
import UbServer.Threads.Facade
import UbServer.Threads.Projection

/-!
# What the clients of all threads read

A server with an `epoll` instance for each thread, and what has gone over the connection of each
descriptor since it was accepted. A descriptor comes back after a close, also in another thread, and
the steps of the threads interleave; a thread has seen all that went over the connections it has records
of, as in a run of its own.

* `Service`: the threads, and the exchanges of the connections.
* `Follows`: the state of a single thread that a thread is in.
* `Service.read`: what the clients read, in every interleaving of the steps.
-/

namespace UbServer

open Runs QueueConnectionsType Framing

/-- The threads, and what has gone over the connection of each descriptor since it was accepted. -/
structure Service (n : ℕ) where
  facade : FacadeSystem n
  exchanges : ℕ → Exchange

def Service.init (n : ℕ) (clock : ℤ) : Service n := ⟨.init n clock, fun _ => .opened⟩

section Steps

variable {n : ℕ} (options : Options)

/-- What has gone over the connections when the step leads to `f`. -/
def Service.exchangesAfter (s : Service n) (f : FacadeSystem n) : SystemAction n → ℕ → Exchange
  | .thread _ (.accept fd) => Function.update s.exchanges fd .opened
  | .thread t (.call sys) =>
    match s.facade.system.loop t, f.system.loop t with
    | some e, some e' =>
      Function.update s.exchanges e.clientFd
        ((s.exchanges e.clientFd).after options (s.facade.system.workers t).queue e sys e')
    | _, _ => s.exchanges
  | _ => s.exchanges

/-- One step. -/
def Service.next (s : Service n) (a : SystemAction n) : Option (Service n) :=
  (s.facade.next options a).map fun f => ⟨f, s.exchangesAfter options f a⟩

/-- One step, as a step relation. -/
abbrev ServiceStep (s : Service n) (a : SystemAction n) (s' : Service n) : Prop :=
  s.next options a = some s'

end Steps

/-- What the system answers to a step of the loop of a client, with the thread. -/
def SystemAction.sys {n : ℕ} : SystemAction n → Option (Fin n × Sys)
  | .thread t a => a.sys.map (Prod.mk t)
  | .tick _ => none

/-- The texts that the step gets for a response have no line breaks. -/
def SystemAction.OneLine {n : ℕ} : SystemAction n → Prop
  | .thread _ a => a.OneLine
  | .tick _ => True

/-- The file behind `bodyFd` is what it was when the response was built. -/
def Service.BodyUnchanged {n : ℕ} (s : Service n) (a : SystemAction n) : Prop :=
  ∀ call ∈ a.sys, ∀ e ∈ s.facade.system.loop call.1, e.pc = .sendBody →
    (s.exchanges e.clientFd).answers.getLast?.map Answer.body = some call.2.bodyFile

instance {n : ℕ} (s : Service n) (a : SystemAction n) : Decidable (s.BodyUnchanged a) :=
  inferInstanceAs (Decidable (∀ call ∈ _, ∀ e ∈ _, _))

/-! ### A step and the exchanges -/

section Exchanges

variable {n : ℕ} {options : Options} {s s' : System n} {a : SystemAction n} {t u : Fin n} {fd : ℕ}
  {e e' : EventLoop} {sys : Sys}

theorem System.existsConnection_iff (s : System n) (t : Fin n) (fd : ℕ) :
    existsConnection (s.workers t).queue fd ↔ s.records t fd ≠ none := by
  simp [existsConnection, System.records, getConnectionByFd_eq_none, Option.isSome_iff_ne_none]

theorem System.call_running (h : SystemStep options s (.thread t (.call sys)) s')
    (hloop : s.loop t = some e) (hloop' : s'.loop t = some e') : e.pc ≠ .ended := by
  obtain ⟨w', effects, hstep, -, hworkers⟩ := System.step_workers h
  rw [System.loop, hworkers, Function.update_self] at hloop'
  exact EventLoop.step_ended (Worker.step_call hstep hloop hloop')

theorem System.Exclusive.accept_free (hexclusive : s.Exclusive)
    (h : SystemStep options s (.thread t (.accept fd)) s') : ¬ s.Holds u fd := by
  obtain ⟨⟨-, -, hnone⟩, -⟩ := System.next_inv h
  intro hheld
  refine hexclusive.opened u fd hheld ?_
  exact s.connection_eq_none.mpr (Option.isNone_iff_eq_none.mp hnone)

theorem System.Stepped.record_stays (h : s.Stepped a s') (hrecord : s.records u fd ≠ none) :
    s'.records u fd ≠ none ∨ s'.connection fd = none := by
  -- a record that a step writes
  have hwritten : ∀ {t : Fin n} {w' : Worker} {x : ℕ} {c : QueueConnectionElementType} {s' : System n},
      s'.workers = Function.update s.workers t w' →
      getConnectionByFd w'.queue = Function.update (s.records t) x (some c) →
      s'.records u fd ≠ none := by
    intro t w' x c s' hworkers hm
    rw [System.records_step (s := s) hworkers hm]
    split
    · exact Option.some_ne_none c
    · exact hrecord
  -- a record that a step removes and closes
  have hclosed : ∀ {t : Fin n} {w' : Worker} {x : ℕ} {s' : System n},
      s'.workers = Function.update s.workers t w' →
      s'.sockets = Function.update s.sockets x none →
      getConnectionByFd w'.queue = Function.update (s.records t) x none →
      s'.records u fd ≠ none ∨ s'.connection fd = none := by
    intro t w' x s' hworkers hsockets hm
    rw [System.records_step (s := s) hworkers hm]
    by_cases hx : fd = x
    · refine Or.inr (s'.connection_eq_none.mpr ?_)
      rw [hsockets, hx, Function.update_self]
    · rw [if_neg fun htouched => hx htouched.2]
      exact Or.inl hrecord
  cases h with
  | tick now hle => exact Or.inl hrecord
  | rested t b w' sockets hrests hsockets =>
    rw [System.records_rests (s := s) rfl hrests]
    exact Or.inl hrecord
  | accepted t x w' hrests h0 hnone =>
    rw [System.records_rests (s := s) rfl hrests]
    exact Or.inl hrecord
  | swept t now x c w' hp hp' hexpired hc hold hm => exact hclosed rfl rfl hm
  | taken t now mem x slot w' hloop hloop' hm => exact Or.inl (hwritten rfl hm)
  | turned t sys e w' e' c c' sources written completed hturned hnoted =>
    exact Or.inl (hwritten rfl hturned.records)
  | updated t sys e w' e' socket hloop hpc hloop' hpc' hrecorded hm hsocket =>
    exact Or.inl (hwritten rfl hm)
  | dequeued t sys e w' e' hloop hpc hloop' hpc' hm => exact hclosed rfl rfl hm

end Exchanges

section Steps

variable {n : ℕ} {options : Options} {s s' : Service n} {f : FacadeSystem n} {a : SystemAction n}
  {t u : Fin n} {b : WorkerAction} {e e' : EventLoop} {sys : Sys} {fd : ℕ}

theorem Service.next_inv (h : ServiceStep options s a s') :
    FacadeStep options s.facade a s'.facade ∧
      SystemStep options s.facade.system a s'.facade.system ∧
      s'.exchanges = s.exchangesAfter options s'.facade a := by
  obtain ⟨f, hf, rfl⟩ := Option.map_eq_some_iff.mp h
  exact ⟨hf, (FacadeSystem.next_inv hf).1, rfl⟩

theorem Service.exchangesAfter_call (hpre : s.facade.system.loop t = some e)
    (hpost : f.system.loop t = some e') :
    s.exchangesAfter options f (.thread t (.call sys)) =
      Function.update s.exchanges e.clientFd
        ((s.exchanges e.clientFd).after options (s.facade.system.workers t).queue e sys e') := by
  unfold Service.exchangesAfter
  simp only
  rw [hpre, hpost]

/-- A step of a thread that is in no loop before it, or in none after it. -/
theorem Service.exchangesAfter_rest (haccept : b ≠ .accept fd)
    (hloop : s.facade.system.loop t = none ∨ f.system.loop t = none) :
    s.exchangesAfter options f (.thread t b) fd = s.exchanges fd := by
  cases b with
  | accept fd' =>
    refine Function.update_of_ne ?_ _ _
    rintro rfl
    exact haccept rfl
  | call sys =>
    unfold Service.exchangesAfter
    simp only
    rcases hloop with hloop | hloop
    · rw [hloop]
    · rw [hloop]
      cases s.facade.system.loop t <;> rfl
  | _ => rfl

/-- A step changes the exchange of a connection just accepted, and that of the client whose loop makes
the step. -/
theorem Service.exchangesAfter_cases (options : Options) (s : Service n) (f : FacadeSystem n)
    (a : SystemAction n) (fd : ℕ) :
    s.exchangesAfter options f a fd = s.exchanges fd ∨
      (∃ t, a = .thread t (.accept fd) ∧ s.exchangesAfter options f a fd = .opened) ∨
      ∃ t sys e e', a = .thread t (.call sys) ∧ s.facade.system.loop t = some e ∧
        f.system.loop t = some e' ∧ e.clientFd = fd := by
  cases a with
  | tick now => exact Or.inl rfl
  | thread t b =>
    by_cases haccept : b = .accept fd
    · subst haccept
      exact Or.inr (Or.inl ⟨t, rfl, Function.update_self _ _ _⟩)
    · cases hpre : s.facade.system.loop t with
      | none => exact Or.inl (exchangesAfter_rest haccept (Or.inl hpre))
      | some e =>
        cases hpost : f.system.loop t with
        | none => exact Or.inl (exchangesAfter_rest haccept (Or.inr hpost))
        | some e' =>
          cases b with
          | accept fd' =>
            refine Or.inl (Function.update_of_ne ?_ _ _)
            rintro rfl
            exact haccept rfl
          | call sys =>
            by_cases hfd : e.clientFd = fd
            · exact Or.inr (Or.inr ⟨t, sys, e, e', rfl, hpre, hpost, hfd⟩)
            · refine Or.inl ?_
              rw [exchangesAfter_call hpre hpost]
              exact Function.update_of_ne (Ne.symm hfd) _ _
          | _ => exact Or.inl rfl

/-! ### The run of a thread -/

/-- The state of a single thread that is the thread `t`, and has seen what went over the connections
of its records. -/
structure Follows (options : Options) (s : Service n) (t : Fin n) (v : Served) : Prop where
  conversing : Conversing options v
  plays : v.thread.Plays s.facade.system t
  exchanges : ∀ fd, s.facade.system.records t fd ≠ none → v.exchanges fd = s.exchanges fd

/-- What holds of the threads and the connections in every state. -/
structure Service.Conversant (options : Options) (s : Service n) : Prop where
  safe : s.facade.Safe
  threads : ∀ t, ∃ v, Follows options s t v
  /-- Nothing has gone over a connection that no thread has a record of. -/
  fresh : ∀ fd, s.facade.system.connection fd ≠ none →
    (∀ t, s.facade.system.records t fd = none) → s.exchanges fd = .opened
  framed : ∀ fd, ∃ replies, (s.exchanges fd).Framed options replies

theorem Service.exchanges_others (hsafe : s.facade.Safe) (h : ServiceStep options s a s')
    (hu : ∀ b, a ≠ .thread u b) (hheld : s.facade.system.Holds u fd) :
    s'.exchanges fd = s.exchanges fd := by
  obtain ⟨-, hst, hexchanges⟩ := Service.next_inv h
  rw [hexchanges]
  rcases Service.exchangesAfter_cases options s s'.facade a fd with
    hsame | ⟨t, rfl, -⟩ | ⟨t, sys, e, e', rfl, hloop, hloop', rfl⟩
  · exact hsame
  · exact absurd hheld (hsafe.system.exclusive.accept_free hst)
  · have hpc := System.call_running hst hloop hloop'
    have hself : s.facade.system.Holds t e.clientFd := Or.inr (Phase.mem_clients_of_loop hloop hpc)
    obtain rfl := hsafe.system.exclusive.unique u t _ hheld hself
    exact absurd rfl (hu _)

theorem Follows.others {v : Served} (hsafe : s.facade.Safe) (h : ServiceStep options s a s')
    (hu : ∀ b, a ≠ .thread u b) (hv : Follows options s u v) : Follows options s' u v := by
  obtain ⟨-, hst, -⟩ := Service.next_inv h
  have hplays := hv.plays.others hsafe.system.kept.sound hst hu
  refine ⟨hv.conversing, hplays, fun fd hrecord => ?_⟩
  rw [System.records, ← hplays.worker, hv.plays.worker] at hrecord
  rw [Service.exchanges_others hsafe h hu (Or.inl hrecord)]
  exact hv.exchanges fd hrecord

theorem Worker.takes_clients {w : Worker} (h : w.takes b = some fd) : fd ∈ w.phase.clients := by
  unfold Worker.takes at h
  split at h
  · split at h
    · rename_i hphase
      obtain rfl := Option.some.inj h
      rw [hphase]
      exact List.mem_cons_self
    · cases h
  · cases h

/-- A thread that takes up an event of a client without a record is the first one to have to do with
the connection. -/
theorem Service.Conversant.taken (hs : s.Conversant options)
    (htakes : (s.facade.system.workers t).takes b = some fd)
    (hnone : s.facade.system.records t fd = none) : s.exchanges fd = .opened := by
  have hheld : s.facade.system.Holds t fd := Or.inr (Worker.takes_clients htakes)
  refine hs.fresh fd (hs.safe.system.exclusive.opened t fd hheld) fun u => ?_
  by_contra hrecord
  obtain rfl := hs.safe.system.exclusive.unique u t fd (Or.inl hrecord) hheld
  exact hrecord hnone

/-- The thread has seen what went over the connection of the client it is at. -/
theorem Follows.seen {v : Served} (hs : s.Conversant options) (hv : Follows options s t v)
    (hloop : s.facade.system.loop t = some e) (hpc : e.pc ≠ .ended) :
    v.exchanges e.clientFd = s.exchanges e.clientFd := by
  refine hv.exchanges _ ?_
  rw [System.records, (hs.safe.system.kept.sound.workers t).record hloop hpc]
  exact Option.some_ne_none _

/-- When the thread takes up a client, it has seen what went over its connection. -/
theorem Follows.seen_taken {v : Served} (thread : Thread) (hs : s.Conversant options)
    (hv : Follows options s t v) (htakes : (s.facade.system.workers t).takes b = some fd)
    (hloop : s.facade.system.loop t = none) :
    v.exchangesAfter options thread b fd = s.exchanges fd ∧
      ∀ fd', fd' ≠ fd → v.exchangesAfter options thread b fd' = v.exchanges fd' := by
  rw [exchangesAfter_take (hv.plays.worker ▸ hloop) (hv.plays.worker ▸ htakes), hv.plays.worker]
  have hexists := s.facade.system.existsConnection_iff t fd
  by_cases hnone : s.facade.system.records t fd = none
  · rw [if_neg fun he => hexists.mp he hnone, Function.update_self, hs.taken htakes hnone]
    exact ⟨rfl, fun fd' hne => Function.update_of_ne hne _ _⟩
  · rw [if_pos (hexists.mpr hnone)]
    exact ⟨hv.exchanges fd hnone, fun _ _ => rfl⟩

theorem Follows.exchanges_step {v v' : Served} (hs : s.Conversant options)
    (h : ServiceStep options s (.thread t b) s') (hv : Follows options s t v)
    (hnext : ServedStep options v b v')
    (hw : v'.thread.worker = s'.facade.system.workers t) :
    (∀ fd, s'.facade.system.records t fd ≠ none → v'.exchanges fd = s'.exchanges fd) ∧
      ∀ sys, b = .call sys → ∀ e ∈ s.facade.system.loop t, ∀ e' ∈ s'.facade.system.loop t,
        v'.exchanges e.clientFd = s'.exchanges e.clientFd := by
  obtain ⟨-, hst, hexchanges⟩ := Service.next_inv h
  have hsound := hs.safe.system.kept.sound
  obtain ⟨hanswers, -⟩ := System.next_inv hst
  obtain ⟨w', effects, hstep, -, hworkers⟩ := System.step_workers hst
  have hw' : s'.facade.system.workers t = w' := by rw [hworkers, Function.update_self]
  obtain ⟨-, hmoved⟩ := Worker.step_spec (hsound.workers t) (hanswers.timely hsound) hstep
  have hloop' : s'.facade.system.loop t = w'.phase.loop := by rw [System.loop, hw']
  obtain ⟨thread, -, rfl⟩ := Option.map_eq_some_iff.mp hnext
  have hworker : thread.worker = w' := hw.trans hw'
  rw [hexchanges]
  cases hmoved with
  | rested b w' hrests htakes =>
    refine ⟨fun fd hrecord => ?_, fun sys hb e he e' he' => ?_⟩
    · rw [System.records, hw', hrests.queue] at hrecord
      have haccept : b ≠ .accept fd := by
        rintro rfl
        exact hs.safe.system.exclusive.accept_free hst (Or.inl hrecord)
      rw [Service.exchangesAfter_rest haccept (Or.inr (hloop'.trans hrests.loop))]
      show v.exchangesAfter options thread b fd = _
      rw [exchangesAfter_rest (Or.inr (hworker ▸ hrests.loop)) (hv.plays.worker ▸ htakes)]
      exact hv.exchanges fd hrecord
    · rw [hloop', hrests.loop] at he'
      cases he'
  | swept now fd₀ c w' hp hp' hexpired hc hold hm =>
    refine ⟨fun fd hrecord => ?_, fun sys hb => by cases hb⟩
    rw [System.records, hw', hm] at hrecord
    have hne : fd ≠ fd₀ := by
      rintro rfl
      exact hrecord (Function.update_self _ _ _)
    rw [Function.update_of_ne hne] at hrecord
    show v.exchangesAfter options thread .sweep fd = s.exchanges fd
    rw [exchangesAfter_rest (Or.inr (by rw [hworker, hp']; rfl)) rfl]
    exact hv.exchanges fd hrecord
  | taken now mem fd₀ slot w' htakes hloop hfd hstart hm =>
    refine ⟨fun fd hrecord => ?_, fun sys hb => by cases hb⟩
    obtain ⟨hself, hothers⟩ := hv.seen_taken thread hs htakes hloop
    show v.exchangesAfter options thread (.nextEvent now mem) fd = s.exchanges fd
    by_cases hne : fd = fd₀
    · rw [hne]
      exact hself
    · rw [System.records, hw', hm, Function.update_of_ne hne] at hrecord
      rw [hothers fd hne]
      exact hv.exchanges fd hrecord
  | handled sys e e' w' hloop hpc hgoes hhandled =>
    have hthread : v.exchangesAfter options thread (.call sys) = _ :=
      exchangesAfter_call (hv.plays.worker ▸ hloop) (hworker ▸ hgoes)
    have hservice : s.exchangesAfter options s'.facade (.thread t (.call sys)) = _ :=
      Service.exchangesAfter_call hloop (hloop'.trans hgoes)
    have hself : v.exchangesAfter options thread (.call sys) e.clientFd =
        s.exchangesAfter options s'.facade (.thread t (.call sys)) e.clientFd := by
      rw [hthread, hservice, Function.update_self, Function.update_self, hv.seen hs hloop hpc,
        hv.plays.worker]
    refine ⟨fun fd hrecord => ?_, fun sys' hb e₁ he₁ e₁' he₁' => ?_⟩
    · by_cases hne : fd = e.clientFd
      · rw [hne]
        exact hself
      · obtain ⟨r, hm⟩ := hhandled.records
        rw [System.records, hw', hm, Function.update_of_ne hne] at hrecord
        show v.exchangesAfter options thread (.call sys) fd = _
        rw [hthread, hservice, Function.update_of_ne hne, Function.update_of_ne hne]
        exact hv.exchanges fd hrecord
    · obtain rfl := Option.some.inj (hloop.symm.trans he₁)
      exact hself

/-- **A step of the thread itself.** -/
theorem Follows.step {v : Served} (hs : s.Conversant options)
    (h : ServiceStep options s (.thread t b) s') (hbody : s.BodyUnchanged (.thread t b))
    (hline : b.OneLine) (hv : Follows options s t v) :
    ∃ v', Follows options s' t v' ∧
      ∀ fd, s'.exchanges fd = s.exchanges fd ∨ s'.exchanges fd = .opened ∨
        s'.exchanges fd = v'.exchanges fd := by
  obtain ⟨-, hst, hexchanges⟩ := Service.next_inv h
  obtain ⟨thread, hthread, hplays⟩ := hv.plays.step hs.safe.system.kept.sound hst
  obtain ⟨v', hnext, rfl⟩ : ∃ v', ServedStep options v b v' ∧ v'.thread = thread := by
    unfold ServedStep Served.next
    rw [hthread]
    exact ⟨_, rfl, rfl⟩
  have hfile : BodyUnchanged v b := by
    intro e he sys hsys hpc
    rw [hv.plays.worker] at he
    have hne : e.pc ≠ .ended := by
      rw [hpc]
      nofun
    rw [hv.seen hs he hne]
    exact hbody (t, sys) (by rw [SystemAction.sys, hsys]; rfl) e he hpc
  have hconversing := conversing_step hnext hfile hline hv.conversing
  obtain ⟨hrecords, hcall⟩ := hv.exchanges_step hs h hnext hplays.worker
  refine ⟨v', ⟨hconversing, hplays, hrecords⟩, fun fd => ?_⟩
  rcases Service.exchangesAfter_cases options s s'.facade (.thread t b) fd with
    hsame | ⟨u, -, hopened⟩ | ⟨u, sys, e, e', ha, hloop, hloop', rfl⟩
  · exact Or.inl (hexchanges ▸ hsame)
  · exact Or.inr (Or.inl (hexchanges ▸ hopened))
  · obtain ⟨rfl, rfl⟩ := SystemAction.thread.inj ha
    exact Or.inr (Or.inr (hcall sys rfl e hloop e' hloop').symm)

/-- Nothing has gone over a connection until a thread has a record of it. -/
theorem Service.fresh_step (hs : s.Conversant options) (h : ServiceStep options s a s')
    (hopen : s'.facade.system.connection fd ≠ none)
    (hnone : ∀ t, s'.facade.system.records t fd = none) : s'.exchanges fd = .opened := by
  obtain ⟨-, hst, hexchanges⟩ := Service.next_inv h
  have hsound := hs.safe.system.kept.sound
  have hstepped := System.step_cases hsound hst
  have hnone₀ : ∀ t, s.facade.system.records t fd = none := by
    intro t
    by_contra hrecord
    rcases hstepped.record_stays hrecord with hrecord' | hclosed
    · exact hrecord' (hnone t)
    · exact hopen hclosed
  rw [hexchanges]
  rcases Service.exchangesAfter_cases options s s'.facade a fd with
    hsame | ⟨t, -, hopened⟩ | ⟨t, sys, e, e', rfl, hloop, hloop', rfl⟩
  · obtain ⟨incarnation, hopen⟩ := Option.ne_none_iff_exists'.mp hopen
    rcases hstepped.connection hopen with hopen₀ | ⟨t, rfl, -, -, -⟩
    · rw [hsame]
      exact hs.fresh fd (by rw [hopen₀]; exact Option.some_ne_none _) hnone₀
    · exact Function.update_self _ _ _
  · exact hopened
  · have hrecord := (hsound.workers t).record hloop (System.call_running hst hloop hloop')
    rw [show getConnectionByFd (s.facade.system.workers t).queue e.clientFd = none from
      hnone₀ t] at hrecord
    cases hrecord

theorem Service.conversant_init (n : ℕ) (clock : ℤ) :
    (Service.init n clock).Conversant options where
  safe := FacadeSystem.safe_init n clock
  threads _ := ⟨.init clock, conversing_init clock, Thread.plays_init n clock _, fun _ _ => rfl⟩
  fresh _ _ _ := rfl
  framed _ := ⟨[], Exchange.settled_opened.framed⟩

/-- **What every step of the service keeps.** -/
theorem Service.conversant_step (h : ServiceStep options s a s') (hbody : s.BodyUnchanged a)
    (hline : a.OneLine) (hs : s.Conversant options) : s'.Conversant options := by
  obtain ⟨hf, hst, hexchanges⟩ := Service.next_inv h
  refine ⟨FacadeSystem.safe_step hf hs.safe, fun u => ?_, fun fd => Service.fresh_step hs h,
    fun fd => ?_⟩
  · obtain ⟨v, hv⟩ := hs.threads u
    by_cases hu : ∃ b, a = .thread u b
    · obtain ⟨b, rfl⟩ := hu
      obtain ⟨v', hv', -⟩ := hv.step hs h hbody hline
      exact ⟨v', hv'⟩
    · exact ⟨v, hv.others hs.safe h fun b hb => hu ⟨b, hb⟩⟩
  · cases a with
    | tick now => exact hexchanges ▸ hs.framed fd
    | thread t b =>
      obtain ⟨v, hv⟩ := hs.threads t
      obtain ⟨v', hv', hseen⟩ := hv.step hs h hbody hline
      rcases hseen fd with hsame | hopened | hseen
      · exact hsame ▸ hs.framed fd
      · exact hopened ▸ ⟨[], Exchange.settled_opened.framed⟩
      · exact hseen ▸ hv'.conversing.framed fd

end Steps

/-- What the clients of all threads read when every step of a thread is made in one. -/
theorem Service.read {n : ℕ} {options : Options} {clock : ℤ}
    {h : List (Transition (Service n) (SystemAction n))} {s : Service n}
    (hr : Run (ServiceStep options) (.init n clock) h s) (hbody : Guarded Service.BodyUnchanged h)
    (hline : ∀ e ∈ h, e.act.OneLine) :
    (∀ fd, ∃ replies, ClientReads options (s.exchanges fd) replies) ∧
    ∀ t fd, s.facade.system.records t fd ≠ none →
      (∀ e ∈ s.facade.system.loop t, e.pc ≠ .ended → e.clientFd ≠ fd) →
        ∃ replies, (s.exchanges fd).Answers options replies ∧
          replyCode.decodeAll (s.exchanges fd).wire = (replies, []) ∧
          ∀ reply ∈ replies, Keeps reply := by
  have hguard : Guarded (fun s a => s.BodyUnchanged a ∧ a.OneLine) h :=
    fun e he => ⟨hbody e he, hline e he⟩
  have hs : s.Conversant options := hr.invariant_of_guard (Service.conversant_init n clock)
    (fun _ _ _ hst hg hinv => Service.conversant_step hst hg.1 hg.2 hinv) hguard
  refine ⟨fun fd => ?_, fun t fd hrecord hloop => ?_⟩
  · obtain ⟨replies, hframed⟩ := hs.framed fd
    exact ⟨replies, hframed.reads⟩
  · obtain ⟨v, hv⟩ := hs.threads t
    obtain ⟨c, hc⟩ := Option.ne_none_iff_exists'.mp hrecord
    obtain ⟨replies, hsettled⟩ :=
      hv.conversing.settled fd c (hv.plays.worker ▸ hc) (hv.plays.worker ▸ hloop)
    rw [hv.exchanges fd hrecord] at hsettled
    refine ⟨replies, hsettled.answers, ?_, hsettled.keeps⟩
    rw [hsettled.wire]
    exact StreamCode.decodeAll_flatMap replies

end UbServer

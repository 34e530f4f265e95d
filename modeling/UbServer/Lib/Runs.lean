import Mathlib.Tactic.Common

/-!
# Runs of a labelled transition system

A system is a relation `Step : σ → α → σ → Prop`; the label `α` is whatever the outside decides
(a call and its arguments, the outcome of a system call, the choice of a scheduler).

* `Run Step s₀ h s`: the history `h` of recorded transitions leads from `s₀` to `s`.
* `Run.invariant`, `Run.invariant_of_guard`: the induction over a run, done once, without and with
  a guard that every step of the run meets.
* `Run.forall_post_iff`: when one step keeps a property exactly under a guard, a run keeps it in
  every state exactly when every step of the run meets the guard.
* `Run.lasting_iff`: what stays once it has come holds at the end exactly when some step brought it.
* `visits`, `occurrences`: how often a run comes to a state, and how often it takes a step, of a kind.
* `exec`: the run of a deterministic partial step function on a list of labels, for replaying one
  concrete run; `guardedNext` checks a guard on the way.
* `Inevitable`: the system ends in a final state on every infinite script of allowed labels, with the
  rule for one step and the rule that an invariant of one label refutes it.
* `Reaches`: one script brings the system to a state with a property; `reaches_of_measure` is the rule
  for scripts whose helpful labels, which decrease a measure, keep coming.
-/

namespace Runs

variable {σ α : Type*}

/-- One recorded step of a run. -/
structure Transition (σ α : Type*) where
  pre : σ
  act : α
  post : σ

/-- The history `h` leads from `s₀` to the last state. -/
inductive Run (Step : σ → α → σ → Prop) (s₀ : σ) : List (Transition σ α) → σ → Prop
  | nil : Run Step s₀ [] s₀
  | snoc {h : List (Transition σ α)} {s t : σ} {a : α} :
      Run Step s₀ h s → Step s a t → Run Step s₀ (h ++ [⟨s, a, t⟩]) t

/-- Every step of the history meets the guard in the state it starts from. -/
def Guarded (Guard : σ → α → Prop) (h : List (Transition σ α)) : Prop :=
  ∀ e ∈ h, Guard e.pre e.act

instance (Guard : σ → α → Prop) [∀ s a, Decidable (Guard s a)] (h : List (Transition σ α)) :
    Decidable (Guarded Guard h) := inferInstanceAs (Decidable (∀ e ∈ h, _))

/-- Every state of the history after the first one has the property. -/
def Always (P : σ → Prop) (h : List (Transition σ α)) : Prop := ∀ e ∈ h, P e.post

section Histories

variable {Guard : σ → α → Prop} {P : σ → Prop} {h : List (Transition σ α)}
  {e : Transition σ α}

@[simp] theorem guarded_nil : Guarded Guard ([] : List (Transition σ α)) := by simp [Guarded]

@[simp] theorem always_nil : Always P ([] : List (Transition σ α)) := by simp [Always]

@[simp] theorem guarded_snoc : Guarded Guard (h ++ [e]) ↔ Guarded Guard h ∧ Guard e.pre e.act := by
  simp [Guarded, or_imp, forall_and]

@[simp] theorem always_snoc : Always P (h ++ [e]) ↔ Always P h ∧ P e.post := by
  simp [Always, or_imp, forall_and]

end Histories

section Rules

variable {Step : σ → α → σ → Prop} {Guard : σ → α → Prop} {Inv P : σ → Prop} {s₀ s : σ}
  {h : List (Transition σ α)}

/-- What every step keeps under its guard holds in the last state of a guarded run. -/
theorem Run.invariant_of_guard (hr : Run Step s₀ h s) (h₀ : Inv s₀)
    (hstep : ∀ s a t, Step s a t → Guard s a → Inv s → Inv t) (hg : Guarded Guard h) : Inv s := by
  induction hr with
  | nil => exact h₀
  | snoc _ hst ih =>
    obtain ⟨hg, hga⟩ := guarded_snoc.mp hg
    exact hstep _ _ _ hst hga (ih hg)

/-- What every step keeps holds in the last state of a run. -/
theorem Run.invariant (hr : Run Step s₀ h s) (h₀ : Inv s₀)
    (hstep : ∀ s a t, Step s a t → Inv s → Inv t) : Inv s :=
  hr.invariant_of_guard h₀ (fun s a t hs _ => hstep s a t hs)
    (show Guarded (fun _ _ => True) h from fun _ _ => trivial)

/-- Every recorded transition of a run is a step from a state that a run reaches. -/
theorem Run.of_mem (hr : Run Step s₀ h s) {e : Transition σ α} (he : e ∈ h) :
    ∃ h', h' <+: h ∧ Run Step s₀ h' e.pre ∧ Step e.pre e.act e.post := by
  induction hr with
  | nil => simp at he
  | @snoc h s t a hr hst ih =>
    rcases List.mem_append.mp he with he | he
    · obtain ⟨h', hp, hr', hs'⟩ := ih he
      exact ⟨h', hp.trans (List.prefix_append _ _), hr', hs'⟩
    · obtain rfl := List.mem_singleton.mp he
      exact ⟨h, List.prefix_append _ _, hr, hst⟩

theorem Guarded.of_prefix {h' : List (Transition σ α)} (hg : Guarded Guard h) (hp : h' <+: h) :
    Guarded Guard h' := fun e he => hg e (hp.subset he)

theorem Run.always (hr : Run Step s₀ h s) (h₀ : Inv s₀)
    (hstep : ∀ s a t, Step s a t → Inv s → Inv t) : Always Inv h := by
  intro e he
  obtain ⟨h', -, hr', hst⟩ := hr.of_mem he
  exact hstep _ _ _ hst (hr'.invariant h₀ hstep)

/-- A property of single steps that an invariant gives holds of every step of a run. -/
theorem Run.forall_steps (hr : Run Step s₀ h s) (h₀ : Inv s₀)
    (hstep : ∀ s a t, Step s a t → Guard s a → Inv s → Inv t) (hg : Guarded Guard h)
    {Q : Transition σ α → Prop}
    (hQ : ∀ s a t, Step s a t → Guard s a → Inv s → Q ⟨s, a, t⟩) : ∀ e ∈ h, Q e := by
  intro e he
  obtain ⟨h', hp, hr', hst⟩ := hr.of_mem he
  exact hQ _ _ _ hst (hg e he) (hr'.invariant_of_guard h₀ hstep (hg.of_prefix hp))

/-- **Exactness over runs.** If, below an invariant, a step from a state with `P` ends in a state
with `P` exactly when it meets the guard, then `P` holds in every state of a run exactly when every
step of the run meets the guard. -/
theorem Run.forall_post_iff (hr : Run Step s₀ h s) (h₀ : Inv s₀ ∧ P s₀)
    (hinv : ∀ s a t, Step s a t → Inv s → P s → Guard s a → Inv t)
    (hexact : ∀ s a t, Step s a t → Inv s → P s → (P t ↔ Guard s a)) :
    Always P h ↔ Guarded Guard h := by
  suffices key : (Always P h ↔ Guarded Guard h) ∧ (Guarded Guard h → Inv s ∧ P s) from key.1
  induction hr with
  | nil => simpa using h₀
  | @snoc h s t a _ hst ih =>
    rw [always_snoc, guarded_snoc, ih.1]
    refine ⟨and_congr_right fun hg => hexact s a t hst (ih.2 hg).1 (ih.2 hg).2, ?_⟩
    rintro ⟨hg, hga⟩
    obtain ⟨hi, hp⟩ := ih.2 hg
    exact ⟨hinv s a t hst hi hp hga, (hexact s a t hst hi hp).mpr hga⟩

/-- **What stays once it has come.** If, below an invariant, `P` holds after a step exactly when it
held before or the step is marked, then it holds at the end of a run that starts without it exactly
when some step of the run is marked. -/
theorem Run.lasting_iff (hr : Run Step s₀ h s) {Marked : σ → α → Prop} (h₀ : Inv s₀ ∧ ¬ P s₀)
    (hinv : ∀ s a t, Step s a t → Guard s a → Inv s → Inv t)
    (hexact : ∀ s a t, Step s a t → Guard s a → Inv s → (P t ↔ P s ∨ Marked s a))
    (hg : Guarded Guard h) : P s ↔ ∃ e ∈ h, Marked e.pre e.act := by
  induction hr with
  | nil => exact iff_of_false h₀.2 (by simp)
  | @snoc h s t a hr hst ih =>
    obtain ⟨hg, hga⟩ := guarded_snoc.mp hg
    rw [hexact s a t hst hga (hr.invariant_of_guard h₀.1 hinv hg), ih hg]
    simp [or_and_right, exists_or]

end Rules

/-! ### Counting -/

section Counting

/-- How often the run is in a state with `P`, the last state included. -/
def visits (P : σ → Prop) [DecidablePred P] (h : List (Transition σ α)) (s : σ) : ℕ :=
  h.countP (fun e => decide (P e.pre)) + if P s then 1 else 0

/-- The number of steps of the history that meet `B` in the state they start from. -/
def occurrences (B : σ → α → Prop) [∀ s a, Decidable (B s a)] (h : List (Transition σ α)) : ℕ :=
  h.countP fun e => decide (B e.pre e.act)

variable {Step : σ → α → σ → Prop} {Inv P : σ → Prop} {B : σ → α → Prop} {s₀ s : σ}
  {h : List (Transition σ α)} [DecidablePred P] [∀ s a, Decidable (B s a)]

theorem occurrences_eq_zero : occurrences B h = 0 ↔ Guarded (fun s a => ¬ B s a) h := by
  simp [occurrences, Guarded, List.countP_eq_zero]

/-- **Counting visits.** If, below an invariant, a step ends in a state with `P` exactly when it meets
`B`, then a run is in such a state once for the start and once for each of those steps. -/
theorem Run.visits_eq (hr : Run Step s₀ h s) (h₀ : Inv s₀)
    (hstep : ∀ s a t, Step s a t → Inv s → Inv t)
    (hexact : ∀ s a t, Step s a t → Inv s → (P t ↔ B s a)) :
    visits P h s = (if P s₀ then 1 else 0) + occurrences B h := by
  induction hr with
  | nil => simp [visits, occurrences]
  | @snoc h s t a hr hst ih =>
    have hlast := hexact s a t hst (hr.invariant h₀ hstep)
    unfold visits occurrences at ih ⊢
    simp only [List.countP_append, List.countP_singleton, decide_eq_true_eq, hlast]
    omega

end Counting

/-! ### Replaying a run -/

section Exec

variable (next : σ → α → Option σ)

/-- The state a deterministic partial system reaches on a list of labels. -/
def exec : σ → List α → Option σ
  | s, [] => some s
  | s, a :: as => (next s a).bind (exec · as)

/-- The recorded steps of `exec`. -/
def history : σ → List α → List (Transition σ α)
  | _, [] => []
  | s, a :: as =>
    match next s a with
    | some t => ⟨s, a, t⟩ :: history t as
    | none => []

variable {next} {s₀ s t : σ} {h : List (Transition σ α)} {as : List α}

theorem exec_append (s : σ) (as bs : List α) :
    exec next s (as ++ bs) = (exec next s as).bind (exec next · bs) := by
  induction as generalizing s with
  | nil => rfl
  | cons a as ih =>
    rw [List.cons_append, exec, exec, Option.bind_assoc]
    exact congrArg _ (funext ih)

theorem Run.append_exec (hr : Run (fun s a t => next s a = some t) s₀ h s)
    (he : exec next s as = some t) :
    Run (fun s a t => next s a = some t) s₀ (h ++ history next s as) t := by
  induction as generalizing h s with
  | nil =>
    obtain rfl : s = t := by simpa [exec] using he
    simpa [history] using hr
  | cons a as ih =>
    obtain ⟨u, hu, he⟩ := Option.bind_eq_some_iff.mp he
    simpa [history, hu] using ih (hr.snoc hu) he

theorem run_of_exec (he : exec next s as = some t) :
    Run (fun s a t => next s a = some t) s (history next s as) t := by
  simpa using Run.nil.append_exec he

theorem act_mem_of_history {e : Transition σ α} (he : e ∈ history next s as) : e.act ∈ as := by
  induction as generalizing s with
  | nil => cases he
  | cons a as ih =>
    unfold history at he
    cases hnext : next s a with
    | none =>
      rw [hnext] at he
      cases he
    | some t =>
      rw [hnext] at he
      rcases List.mem_cons.mp he with rfl | he
      · exact List.mem_cons_self
      · exact List.mem_cons_of_mem _ (ih he)

theorem length_history (he : (exec next s as).isSome) : (history next s as).length = as.length := by
  induction as generalizing s with
  | nil => rfl
  | cons a as ih =>
    unfold exec at he
    unfold history
    cases hnext : next s a with
    | none =>
      rw [hnext] at he
      cases he
    | some u =>
      rw [hnext] at he
      exact congrArg Nat.succ (ih he)

theorem run_of_isSome (he : (exec next s as).isSome) :
    Run (fun s a t => next s a = some t) s (history next s as) ((exec next s as).get he) :=
  run_of_exec (Option.some_get he).symm

theorem exists_run_of_any (next : σ → α → Option σ) (s : σ) (as : List α) {p : σ → Bool}
    (he : (exec next s as).any p) :
    ∃ h t, Run (fun s a t => next s a = some t) s h t ∧ p t := by
  obtain ⟨t, ht, hp⟩ := (Option.any_eq_true ..).mp he
  exact ⟨_, t, run_of_exec ht, hp⟩

/-- The step function, stopped by a guard. -/
def guardedNext (next : σ → α → Option σ) (Guard : σ → α → Prop) [∀ s a, Decidable (Guard s a)]
    (s : σ) (a : α) : Option σ :=
  if Guard s a then next s a else none

theorem guarded_of_exec {Guard : σ → α → Prop} [∀ s a, Decidable (Guard s a)]
    (he : exec (guardedNext next Guard) s as = some t) :
    exec next s as = some t ∧ Guarded Guard (history next s as) := by
  induction as generalizing s with
  | nil => exact ⟨he, guarded_nil⟩
  | cons a as ih =>
    obtain ⟨u, hu, he⟩ := Option.bind_eq_some_iff.mp he
    obtain ⟨hguard, hnext⟩ := Option.ite_none_right_eq_some.mp hu
    obtain ⟨hexec, hguarded⟩ := ih he
    unfold exec history
    rw [hnext]
    refine ⟨hexec, fun e he => ?_⟩
    rcases List.mem_cons.mp he with rfl | he
    · exact hguard
    · exact hguarded e he

/-- A replay whose steps meet a guard and that ends in a state with a decidable property. -/
theorem exists_run_of_guarded (next : σ → α → Option σ) (Guard : σ → α → Prop)
    [∀ s a, Decidable (Guard s a)] (s : σ) (as : List α) {p : σ → Bool}
    (he : (exec (guardedNext next Guard) s as).any p) :
    ∃ h t, Run (fun s a t => next s a = some t) s h t ∧ Guarded Guard h ∧ p t := by
  obtain ⟨t, ht, hp⟩ := (Option.any_eq_true ..).mp he
  obtain ⟨hexec, hguarded⟩ := guarded_of_exec ht
  exact ⟨_, t, run_of_exec hexec, hguarded, hp⟩

end Exec

/-! ### Infinite scripts -/

section Scripts

variable (next : σ → α → Option σ) (Allowed : α → Prop) (Final : σ → Prop)

/-- The state after the first labels of a script; `none` when the system got stuck. -/
def trace (s : σ) (script : ℕ → α) : ℕ → Option σ
  | 0 => some s
  | k + 1 => (trace s script k).bind (next · (script k))

/-- On every script of allowed labels, the system comes to a final state. -/
def Inevitable (s : σ) : Prop :=
  ∀ script : ℕ → α, (∀ k, Allowed (script k)) → ∃ k t, trace next s script k = some t ∧ Final t

variable {next Allowed Final} {s : σ}

theorem trace_succ (s : σ) (script : ℕ → α) (k : ℕ) :
    trace next s script (k + 1) =
      (next s (script 0)).bind fun t => trace next t (fun k => script (k + 1)) k := by
  induction k with
  | zero => exact (Option.bind_fun_some _).symm
  | succ k ih =>
    rw [trace, ih, Option.bind_assoc]
    rfl

theorem trace_add (s : σ) (script : ℕ → α) (k i : ℕ) :
    trace next s script (k + i) =
      (trace next s script k).bind fun t => trace next t (fun j => script (k + j)) i := by
  induction i with
  | zero => exact (Option.bind_fun_some _).symm
  | succ i ih =>
    rw [← Nat.add_assoc, trace, ih, Option.bind_assoc]
    rfl

theorem invariant_of_trace {Inv : σ → Prop} {script : ℕ → α} {k : ℕ} {t : σ}
    (hstep : ∀ s k t, Inv s → next s (script k) = some t → Inv t) (h : Inv s)
    (ht : trace next s script k = some t) : Inv t := by
  induction k generalizing t with
  | zero =>
    obtain rfl := Option.some.inj ht
    exact h
  | succ k ih =>
    obtain ⟨u, hu, ht⟩ := Option.bind_eq_some_iff.mp ht
    exact hstep u k t (ih hu) ht

theorem inevitable_of_final (h : Final s) : Inevitable next Allowed Final s :=
  fun _ _ => ⟨0, s, rfl, h⟩

/-- **One step.** From a state that is not final, every allowed label must lead on. -/
theorem inevitable_iff_step (h : ¬ Final s) :
    Inevitable next Allowed Final s ↔
      ∀ a, Allowed a → ∃ t, next s a = some t ∧ Inevitable next Allowed Final t := by
  constructor
  · intro hs a ha
    -- a script that starts with the label, and what comes after it
    have hafter : ∀ script : ℕ → α, (∀ k, Allowed (script k)) → ∃ k t u,
        next s a = some t ∧ trace next t script k = some u ∧ Final u := by
      intro script hscript
      obtain ⟨k, u, hu, hfinal⟩ := hs (fun k => Nat.casesOn k a script) fun k => by
        cases k with
        | zero => exact ha
        | succ k => exact hscript k
      cases k with
      | zero =>
        obtain rfl := Option.some.inj hu
        exact absurd hfinal h
      | succ k =>
        rw [trace_succ] at hu
        obtain ⟨t, ht, hu⟩ := Option.bind_eq_some_iff.mp hu
        exact ⟨k, t, u, ht, hu, hfinal⟩
    obtain ⟨-, t, -, ht, -⟩ := hafter (fun _ => a) fun _ => ha
    refine ⟨t, ht, fun script hscript => ?_⟩
    obtain ⟨k, t', u, ht', hu, hfinal⟩ := hafter script hscript
    obtain rfl := Option.some.inj (ht.symm.trans ht')
    exact ⟨k, u, hu, hfinal⟩
  · intro hs script hscript
    obtain ⟨t, ht, hinevitable⟩ := hs (script 0) (hscript 0)
    obtain ⟨k, u, hu, hfinal⟩ := hinevitable (fun k => script (k + 1)) fun k => hscript (k + 1)
    refine ⟨k + 1, u, ?_, hfinal⟩
    rw [trace_succ, ht]
    exact hu

/-- **Spinning.** An invariant that one allowed label keeps, and that holds in no final state. -/
theorem not_inevitable_of_invariant {Inv : σ → Prop} {a : α} (ha : Allowed a)
    (hfinal : ∀ s, Inv s → ¬ Final s) (hstep : ∀ s t, Inv s → next s a = some t → Inv t)
    (h : Inv s) : ¬ Inevitable next Allowed Final s := by
  intro hs
  obtain ⟨k, t, ht, hf⟩ := hs (fun _ => a) fun _ => ha
  exact hfinal t (invariant_of_trace (fun s _ t hinv hnext => hstep s t hinv hnext) h ht) hf

end Scripts

/-! ### One script -/

section Reaches

variable (next : σ → α → Option σ) (P : σ → Prop)

/-- The script brings the system to a state with `P`. -/
def Reaches (s : σ) (script : ℕ → α) : Prop := ∃ k t, trace next s script k = some t ∧ P t

variable {next P} {s t : σ} {script : ℕ → α}

theorem reaches_of_trace {k : ℕ} (ht : trace next s script k = some t)
    (h : Reaches next P t fun j => script (k + j)) : Reaches next P s script := by
  obtain ⟨i, u, hu, hp⟩ := h
  refine ⟨k + i, u, ?_, hp⟩
  rw [trace_add, ht]
  exact hu

theorem reaches_of_next (hnext : next s (script 0) = some t)
    (h : Reaches next P t fun k => script (k + 1)) : Reaches next P s script := by
  obtain ⟨k, u, hu, hp⟩ := h
  refine ⟨k + 1, u, ?_, hp⟩
  rw [trace_succ, hnext]
  exact hu

theorem Reaches.of_next (h : Reaches next P s script) (hp : ¬ P s)
    (hnext : next s (script 0) = some t) : Reaches next P t fun k => script (k + 1) := by
  obtain ⟨k, u, hu, hpu⟩ := h
  cases k with
  | zero =>
    obtain rfl := Option.some.inj hu
    exact absurd hpu hp
  | succ k =>
    rw [trace_succ, hnext] at hu
    exact ⟨k, u, hu, hpu⟩

theorem not_reaches_of_invariant {Inv : σ → Prop} (hnot : ∀ s, Inv s → ¬ P s)
    (hstep : ∀ s a t, Inv s → next s a = some t → Inv t) (h : Inv s) : ¬ Reaches next P s script := by
  rintro ⟨k, t, ht, hp⟩
  exact hnot t (invariant_of_trace (fun s k t hinv hnext => hstep s _ t hinv hnext) h ht) hp

/-- **Progress.** As long as the goal is not reached, every allowed label leads on and does not increase
the measure, helpful ones decrease it, and there is always a helpful one to come. -/
theorem reaches_of_measure {Inv : σ → Prop} {Allowed Helpful : σ → α → Prop} (μ : σ → ℕ)
    (hstep : ∀ s a, Allowed s a → Inv s → ∃ t, next s a = some t ∧
      (P t ∨ Inv t ∧ μ t ≤ μ s ∧ (Helpful s a → μ t < μ s)))
    (hallowed : ∀ k t, trace next s script k = some t → Allowed t (script k))
    (hhelp : ∀ k t, trace next s script k = some t → Inv t →
      ∃ i u, trace next s script (k + i) = some u ∧ Helpful u (script (k + i)))
    (h : Inv s) : Reaches next P s script := by
  suffices key : ∀ n k t, trace next s script k = some t → Inv t → μ t ≤ n → Reaches next P s script
    from key _ 0 s rfl h (Nat.le_refl _)
  intro n
  induction n using Nat.strongRecOn with
  | ind n ih =>
    -- a walk to the next helpful label
    have hwalk : ∀ i k t u, trace next s script k = some t → Inv t → μ t ≤ n →
        trace next s script (k + i) = some u → Helpful u (script (k + i)) →
          Reaches next P s script := by
      intro i
      induction i with
      | zero =>
        intro k t u ht hinv hle hu hhelpful
        obtain rfl := Option.some.inj (ht.symm.trans hu)
        obtain ⟨t', hnext, hgoal | ⟨hinv', -, hlt⟩⟩ := hstep t _ (hallowed k t ht) hinv
        · exact ⟨k + 1, t', by rw [trace, ht]; exact hnext, hgoal⟩
        · exact ih (μ t') (Nat.lt_of_lt_of_le (hlt hhelpful) hle) (k + 1) t'
            (by rw [trace, ht]; exact hnext) hinv' (Nat.le_refl _)
      | succ i ihi =>
        intro k t u ht hinv hle hu hhelpful
        obtain ⟨t', hnext, hgoal | ⟨hinv', hle', -⟩⟩ := hstep t _ (hallowed k t ht) hinv
        · exact ⟨k + 1, t', by rw [trace, ht]; exact hnext, hgoal⟩
        · rw [Nat.add_comm i, ← Nat.add_assoc] at hu hhelpful
          exact ihi (k + 1) t' u (by rw [trace, ht]; exact hnext) hinv' (Nat.le_trans hle' hle) hu hhelpful
    intro k t ht hinv hle
    obtain ⟨i, u, hu, hhelpful⟩ := hhelp k t ht hinv
    exact hwalk i k t u ht hinv hle hu hhelpful

end Reaches

end Runs

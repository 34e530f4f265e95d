import UbServer.Dispatch

/-!
# The loops of `sendAll` and `writeAll`

Both loops call `send` or `write` with the start of the buffer and its whole length in every turn, and
count down what is left to write.

* `WriteLoop`: such a loop, turn by turn, on an infinite script of outcomes.
* `ExactlyOnce`: the buffer is handed over once and in order, and the loop ends.
* `exactlyOnce_iff`: the scripts for which that is so.
-/

namespace UbServer

/-! ### The loops -/

/-- One turn of the loop of `writeAll` in `logger.c`. -/
def writeAllTurn (buffer : Bytes) (leftToWrite : ℕ) : SendResult → Bytes × Option ℕ
  | .eintr => ([], some leftToWrite)
  | .eagain => ([], none)
  | .error => ([], none)
  | .sent count =>
    let written := min count buffer.length
    (buffer.take written, some (sizeSub leftToWrite written))

theorem writeAllTurn_eq_sendAllTurn : writeAllTurn = sendAllTurn := by
  funext buffer leftToWrite r
  cases r <;> rfl

/-- A loop: the bytes handed to the kernel so far, the counter, and the value once it has returned. -/
structure WriteLoop where
  handed : Bytes
  leftToWrite : ℕ
  returned : Option ℤ

namespace WriteLoop

variable (turn : Bytes → ℕ → SendResult → Bytes × Option ℕ) (buffer : Bytes)

/-- The test of the loop and, if it holds, a turn. -/
def step (l : WriteLoop) (r : SendResult) : WriteLoop :=
  if l.returned.isSome then l
  else if l.leftToWrite = 0 then { l with returned := some buffer.length }
  else
    match turn buffer l.leftToWrite r with
    | (accepted, some leftToWrite) => ⟨l.handed ++ accepted, leftToWrite, none⟩
    | (accepted, none) => { l with handed := l.handed ++ accepted, returned := some (-1) }

/-- The loop after a number of outcomes of a script. -/
def after (script : ℕ → SendResult) : ℕ → WriteLoop
  | 0 => ⟨[], buffer.length, none⟩
  | k + 1 => step turn buffer (after script k) (script k)

end WriteLoop

/-- What a call for a buffer may return: if anything is transferred, at least one byte, and no more
than asked for. -/
def SendResult.CanBe (buffer : Bytes) : SendResult → Prop
  | .sent count => 1 ≤ count ∧ count ≤ buffer.length
  | _ => True

/-- **Exactly once**: at every moment a prefix of the buffer has been handed over, the counter never
wraps, when the length is returned the buffer has been handed over, and the loop ends if it is
interrupted finitely often. -/
structure ExactlyOnce (turn : Bytes → ℕ → SendResult → Bytes × Option ℕ) (buffer : Bytes)
    (script : ℕ → SendResult) : Prop where
  inOrder : ∀ k, (WriteLoop.after turn buffer script k).handed <+: buffer
  noWrap : ∀ k count, (WriteLoop.after turn buffer script k).returned = none →
    (WriteLoop.after turn buffer script k).leftToWrite ≠ 0 → script k = .sent count →
      count ≤ (WriteLoop.after turn buffer script k).leftToWrite
  whole : ∀ k, (WriteLoop.after turn buffer script k).returned = some (buffer.length : ℤ) →
    (WriteLoop.after turn buffer script k).handed = buffer
  ends : (∃ n, ∀ k ≥ n, script k ≠ .eintr) →
    ∃ k, (WriteLoop.after turn buffer script k).returned ≠ none

/-! ### Scripts -/

/-- The bytes that an outcome transfers. -/
def SendResult.count : SendResult → ℕ
  | .sent count => count
  | _ => 0

/-- The outcome is a failure other than an interruption. -/
def SendResult.Fails (r : SendResult) : Prop := r = .eagain ∨ r = .error

/-- The bytes that the first outcomes of a script transfer. -/
def transferred (script : ℕ → SendResult) : ℕ → ℕ
  | 0 => 0
  | k + 1 => transferred script k + (script k).count

/-- An outcome that comes before the buffer is full and after no failure stays in the buffer, and what
it transfers, the start of the buffer, is what comes next in the buffer. -/
def RepeatsAt (buffer : Bytes) (script : ℕ → SendResult) (k : ℕ) : Prop :=
  ∀ count, (∀ i < k, ¬ (script i).Fails) → script k = .sent count →
    transferred script k < buffer.length →
      transferred script k + count ≤ buffer.length ∧
        (buffer.drop (transferred script k)).take count = buffer.take count

/-- The first transfer is of the whole buffer, or each further one repeats the start of the buffer
where the buffer itself does. -/
def Harmless (buffer : Bytes) (script : ℕ → SendResult) : Prop := ∀ k, RepeatsAt buffer script k

/-! ### The invariant -/

/-- The loop while every outcome has been harmless. -/
inductive HandingOver (buffer : Bytes) (script : ℕ → SendResult) (k : ℕ) (l : WriteLoop) : Prop
  | running (hfails : ∀ i < k, ¬ (script i).Fails) (hle : transferred script k ≤ buffer.length)
      (hloop : l = ⟨buffer.take (transferred script k), buffer.length - transferred script k, none⟩)
  | finished (hle : buffer.length ≤ transferred script k)
      (hreturned : l.returned = some (buffer.length : ℤ)) (hhanded : l.handed = buffer)
  | failed (hfails : ∃ i < k, (script i).Fails) (hreturned : l.returned = some (-1))
      (hhanded : l.handed <+: buffer)

section Invariant

variable {buffer : Bytes} {script : ℕ → SendResult} {k : ℕ}

theorem transferred_le_succ : transferred script k ≤ transferred script (k + 1) :=
  Nat.le_add_right _ _

theorem HandingOver.step {l : WriteLoop} (h : HandingOver buffer script k l)
    (hsize : buffer.length < 2 ^ 64) (hcan : (script k).CanBe buffer)
    (hrepeats : RepeatsAt buffer script k) :
    HandingOver buffer script (k + 1) (l.step sendAllTurn buffer (script k)) := by
  cases h with
  | finished hle hreturned hhanded =>
    have hsame : l.step sendAllTurn buffer (script k) = l := by
      simp [WriteLoop.step, hreturned]
    rw [hsame]
    exact .finished (hle.trans transferred_le_succ) hreturned hhanded
  | failed hfails hreturned hhanded =>
    obtain ⟨i, hi, hfail⟩ := hfails
    have hsame : l.step sendAllTurn buffer (script k) = l := by
      simp [WriteLoop.step, hreturned]
    rw [hsame]
    exact .failed ⟨i, by omega, hfail⟩ hreturned hhanded
  | running hfails hle hloop =>
    subst hloop
    rcases hle.eq_or_lt with heq | hlt
    · -- nothing is left: the function returns
      refine .finished (heq.ge.trans transferred_le_succ) ?_ ?_
      · simp [WriteLoop.step, heq]
      · simp [WriteLoop.step, heq]
    have hleft : buffer.length - transferred script k ≠ 0 := by omega
    have hfailsNext : ¬ (script k).Fails → ∀ i < k + 1, ¬ (script i).Fails := by
      intro hk i hi
      rcases Nat.lt_succ_iff_lt_or_eq.mp hi with hi | rfl
      · exact hfails i hi
      · exact hk
    cases hr : script k with
    | eintr =>
      have hsame : transferred script (k + 1) = transferred script k := by
        simp [transferred, hr, SendResult.count]
      refine .running (hfailsNext (by simp [hr, SendResult.Fails])) (hsame ▸ hle) ?_
      rw [hsame]
      simp [WriteLoop.step, hleft, sendAllTurn]
    | eagain =>
      refine .failed ⟨k, by omega, Or.inl hr⟩ ?_ ?_
      · simp [WriteLoop.step, hleft, sendAllTurn]
      · simpa [WriteLoop.step, hleft, sendAllTurn] using List.take_prefix _ _
    | error =>
      refine .failed ⟨k, by omega, Or.inr hr⟩ ?_ ?_
      · simp [WriteLoop.step, hleft, sendAllTurn]
      · simpa [WriteLoop.step, hleft, sendAllTurn] using List.take_prefix _ _
    | sent count =>
      rw [hr] at hcan
      obtain ⟨hfit, hnext⟩ := hrepeats count hfails hr hlt
      have hsum : transferred script (k + 1) = transferred script k + count := by
        simp [transferred, hr, SendResult.count]
      have hmin : min count buffer.length = count := Nat.min_eq_left hcan.2
      have hsub : sizeSub (buffer.length - transferred script k) count =
          buffer.length - (transferred script k + count) := by
        rw [sizeSub_of_le (by omega) (by omega)]
        omega
      refine .running (hfailsNext (by simp [hr, SendResult.Fails])) (hsum ▸ hfit) ?_
      rw [hsum, List.take_add, hnext]
      simp [WriteLoop.step, hleft, sendAllTurn, hmin, hsub]

theorem handingOver_after (hsize : buffer.length < 2 ^ 64)
    (hscript : ∀ k, (script k).CanBe buffer) {n : ℕ} (h : ∀ k < n, RepeatsAt buffer script k) :
    HandingOver buffer script n (WriteLoop.after sendAllTurn buffer script n) := by
  induction n with
  | zero => exact .running (fun i hi => absurd hi (Nat.not_lt_zero i)) (Nat.zero_le _) rfl
  | succ n ih =>
    exact (ih fun k hk => h k (by omega)).step hsize (hscript n) (h n (by omega))

/-- What the invariant says before the buffer is full and without a failure. -/
theorem HandingOver.running_of_lt {l : WriteLoop} (h : HandingOver buffer script k l)
    (hfails : ∀ i < k, ¬ (script i).Fails) (hlt : transferred script k < buffer.length) :
    l = ⟨buffer.take (transferred script k), buffer.length - transferred script k, none⟩ := by
  cases h with
  | running _ _ hloop => exact hloop
  | finished hle => omega
  | failed hfail =>
    obtain ⟨i, hi, hfail⟩ := hfail
    exact absurd hfail (hfails i hi)

/-- Harmless outcomes hand the buffer over once. -/
theorem Harmless.exactlyOnce (h : Harmless buffer script) (hsize : buffer.length < 2 ^ 64)
    (hscript : ∀ k, (script k).CanBe buffer) : ExactlyOnce sendAllTurn buffer script := by
  have hinv : ∀ k, HandingOver buffer script k (WriteLoop.after sendAllTurn buffer script k) :=
    fun k => handingOver_after hsize hscript fun i _ => h i
  refine ⟨fun k => ?_, fun k count hreturned hleft hcount => ?_, fun k hreturned => ?_, ?_⟩
  · cases hinv k with
    | running _ _ hloop => rw [hloop]; exact List.take_prefix _ _
    | finished _ _ hhanded => rw [hhanded]
    | failed _ _ hhanded => exact hhanded
  · cases hinv k with
    | running hfails hle hloop =>
      rw [hloop] at hleft ⊢
      have hlt : transferred script k < buffer.length := by
        have : buffer.length - transferred script k ≠ 0 := hleft
        omega
      have := (h k count hfails hcount hlt).1
      show count ≤ buffer.length - transferred script k
      omega
    | finished _ hreturned' => rw [hreturned] at hreturned'; cases hreturned'
    | failed _ hreturned' => rw [hreturned] at hreturned'; cases hreturned'
  · cases hinv k with
    | running _ _ hloop => rw [hloop] at hreturned; cases hreturned
    | finished _ _ hhanded => exact hhanded
    | failed _ hreturned' =>
      have := Option.some.inj (hreturned'.symm.trans hreturned)
      omega
  · rintro ⟨n, hn⟩
    by_contra hnever
    have hnone : ∀ k, (WriteLoop.after sendAllTurn buffer script k).returned = none := fun k => by
      by_contra hk
      exact hnever ⟨k, hk⟩
    -- from then on, every turn transfers something
    have hgrows : ∀ j, j ≤ transferred script (n + j) := by
      intro j
      induction j with
      | zero => exact Nat.zero_le _
      | succ j ih =>
        have hrun : ∀ k, (∀ i < k, ¬ (script i).Fails) ∧ transferred script k ≤ buffer.length := by
          intro k
          cases hinv k with
          | running hfails hle => exact ⟨hfails, hle⟩
          | finished _ hreturned => rw [hnone k] at hreturned; cases hreturned
          | failed _ hreturned => rw [hnone k] at hreturned; cases hreturned
        have hfail := (hrun (n + j + 1)).1 (n + j) (by omega)
        have hpos : 1 ≤ (script (n + j)).count := by
          have hcan := hscript (n + j)
          cases hr : script (n + j) with
          | eintr => exact absurd hr (hn _ (by omega))
          | eagain => exact absurd (Or.inl hr) hfail
          | error => exact absurd (Or.inr hr) hfail
          | sent count =>
            rw [hr] at hcan
            exact hcan.1
        show j + 1 ≤ transferred script (n + j) + (script (n + j)).count
        omega
    have hfull := hgrows (buffer.length + 1)
    cases hinv (n + (buffer.length + 1)) with
    | running _ hle => omega
    | finished _ hreturned => rw [hnone] at hreturned; cases hreturned
    | failed _ hreturned => rw [hnone] at hreturned; cases hreturned

/-- An outcome that is not harmless shows. -/
theorem ExactlyOnce.repeatsAt (h : ExactlyOnce sendAllTurn buffer script)
    (hscript : ∀ k, (script k).CanBe buffer)
    (hinv : HandingOver buffer script k (WriteLoop.after sendAllTurn buffer script k)) :
    RepeatsAt buffer script k := by
  intro count hfails hcount hlt
  have hloop := hinv.running_of_lt hfails hlt
  have hcan := hscript k
  rw [hcount] at hcan
  have hfit : count ≤ buffer.length - transferred script k := by
    have := h.noWrap k count
    rw [hloop] at this
    exact this rfl (Nat.sub_ne_zero_of_lt hlt) hcount
  have hnext := h.inOrder (k + 1)
  have hhanded : (WriteLoop.after sendAllTurn buffer script (k + 1)).handed =
      buffer.take (transferred script k) ++ buffer.take count := by
    have hleft : buffer.length - transferred script k ≠ 0 := by omega
    have hmin : min count buffer.length = count := Nat.min_eq_left hcan.2
    rw [WriteLoop.after, hloop, hcount]
    simp [WriteLoop.step, hleft, sendAllTurn, hmin]
  rw [hhanded] at hnext
  refine ⟨by omega, ?_⟩
  -- behind the prefix of the buffer that has been handed over comes what comes there in the buffer
  have hdrop : buffer.take count <+: buffer.drop (transferred script k) := by
    refine (List.prefix_append_right_inj (buffer.take (transferred script k))).mp ?_
    rw [List.take_append_drop]
    exact hnext
  have heq := List.prefix_iff_eq_take.mp hdrop
  rw [List.length_take, Nat.min_eq_left hcan.2] at heq
  exact heq.symm

end Invariant

/-- **Exactly once** is what `sendAll` and `writeAll` do on a script exactly when the script is
harmless: every transfer after the first one repeats the start of the buffer where the buffer itself
does. -/
theorem exactlyOnce_iff (buffer : Bytes) (script : ℕ → SendResult) (hsize : buffer.length < 2 ^ 64)
    (hscript : ∀ k, (script k).CanBe buffer) :
    (ExactlyOnce sendAllTurn buffer script ↔ Harmless buffer script) ∧
      (ExactlyOnce writeAllTurn buffer script ↔ Harmless buffer script) := by
  rw [writeAllTurn_eq_sendAllTurn, and_self]
  constructor
  · intro h k
    induction k using Nat.strong_induction_on with
    | _ k ih => exact h.repeatsAt hscript (handingOver_after hsize hscript ih)
  · intro h
    exact h.exactlyOnce hsize hscript

/-- Two bytes, transferred one at a time: the first one is transferred twice. -/
theorem sendAll_not_exactlyOnce :
    ¬ ∀ (buffer : Bytes) (script : ℕ → SendResult), buffer.length < 2 ^ 64 →
      (∀ k, (script k).CanBe buffer) →
        ExactlyOnce sendAllTurn buffer script ∧ ExactlyOnce writeAllTurn buffer script := by
  intro h
  have hprefix := (h (bytes "ab") (fun _ => .sent 1) (by decide +kernel)
    fun _ => ⟨le_rfl, by decide +kernel⟩).1.inOrder 2
  revert hprefix
  decide +kernel

theorem harmless_whole (buffer : Bytes) : Harmless buffer fun _ => .sent buffer.length := by
  intro k count _ hcount hlt
  obtain rfl := SendResult.sent.inj hcount
  cases k with
  | zero => exact ⟨by simp [transferred], rfl⟩
  | succ k => exact absurd hlt (Nat.le_add_left _ _).not_gt

theorem sendAll_hello :
    ExactlyOnce sendAllTurn helloResponseTemplate (fun _ => .sent helloResponseTemplate.length) ∧
      ExactlyOnce writeAllTurn helloResponseTemplate
        (fun _ => .sent helloResponseTemplate.length) := by
  have hharmless := harmless_whole helloResponseTemplate
  have hiff := exactlyOnce_iff helloResponseTemplate (fun _ => .sent helloResponseTemplate.length)
    (by decide +kernel) fun _ => ⟨by decide +kernel, le_rfl⟩
  exact ⟨hiff.1.mpr hharmless, hiff.2.mpr hharmless⟩

/-! ### The loop in the dispatcher -/

/-- The dispatcher sends a fixed response by the loop of `sendAll`: each of its steps is a turn, until
the function returns. -/
theorem step_sendAll (options : Options) (q : QueueConnectionsType) (e : EventLoop) (sys : Sys)
    (buffer handed : Bytes) (leftToWrite : ℕ) (hpc : e.pc = .sendAll buffer leftToWrite) :
    EventLoop.step options q e sys = some (
      let l := WriteLoop.step sendAllTurn buffer ⟨handed, leftToWrite, none⟩ sys.send
      if l.returned.isSome then e.logAndClose q (q.connections e.slot)
      else e.continue q (q.connections e.slot) (.sendAll buffer l.leftToWrite)
        (effectOf .sent (l.handed.drop handed.length))) := by
  unfold EventLoop.step WriteLoop.step
  simp only [hpc]
  by_cases hleft : leftToWrite = 0
  · simp [hleft]
  · cases hsend : sys.send <;> simp [hleft, sendAllTurn]

end UbServer

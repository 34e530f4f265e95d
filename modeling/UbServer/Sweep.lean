import UbServer.Worker
import UbServer.Queue.Ops
import UbServer.Queue.Order
import Mathlib.Order.Bounds.Basic

/-!
# The sweep of timed-out connections

The loop of `handleEpoll` that takes expired connections off the queue, from its start to
`epoll_wait`, and the timeout that `epoll_wait` is then called with.

* `Worker.sweeps`: a number of turns of the sweep.
* `sweep_spec`: what the whole sweep does.
* `epollTimeout`: computed from the root of the queue before the sweep.
* `wakesInTime_iff`: for which queues and times that is early enough.
-/

namespace UbServer

open QueueConnectionsType

/-- The given number of turns of the sweep, the last one being the test that ends it, with all their
effects. -/
def Worker.sweeps (options : Options) : ℕ → Worker → Option (Worker × List (ℕ × Effect))
  | 0, w => some (w, [])
  | n + 1, w =>
    (w.step options .sweep).bind fun (w₁, effects) =>
      (Worker.sweeps options n w₁).map fun (w₂, effects') => (w₂, effects ++ effects')

/-- The index is exact, the descriptors are those of clients, and the heap is ordered. -/
structure Consistent (q : QueueConnectionsType) : Prop where
  exact : q.IndexExact
  sized : Sized q
  ordered : HeapOrdered q

/-- The connection is closed by a sweep at `now`. -/
def Expired (now : ℤ) (connection : QueueConnectionElementType) : Prop :=
  difftime now connection.priorityTime ≥ keepAliveTimeout

instance (now : ℤ) : DecidablePred (Expired now) :=
  fun _ => inferInstanceAs (Decidable (_ ≥ _))

section Sweep

variable {options : Options} {q : QueueConnectionsType} {now : ℤ} {fd : ℕ}

theorem dequeueConnectionByFd_currentSize (he : q.IndexExact) {index : ℕ}
    (hi : q.indexQueue fd = some index) :
    (dequeueConnectionByFd q fd).currentSize = q.currentSize - 1 := by
  rw [dequeueConnectionByFd_eq he hi]
  split
  · rfl
  · exact (heapify_rearranges (replaced q index) index).size

theorem expired_eq_some (hs : Sized q) :
    q.expired now = some fd ↔
      0 < q.currentSize ∧ Expired now (q.connections 0) ∧ q.fd 0 = fd := by
  unfold QueueConnectionsType.expired peekQueueConnections Expired
  by_cases hsize : q.currentSize = 0
  · simp [hsize]
  · have hpos : 0 < q.currentSize := Nat.pos_of_ne_zero hsize
    have hfd : (q.connections 0).clientFd ≠ 0 := Nat.ne_of_gt (hs.clientFd 0 hpos).1
    simp only [if_neg hsize, Option.bind_some, ne_eq, hfd, not_false_eq_true, true_and, hpos]
    by_cases hold : difftime now (q.connections 0).priorityTime ≥ keepAliveTimeout
    · rw [if_pos hold, Option.some.injEq, and_iff_right hold]
      rfl
    · rw [if_neg hold]
      exact iff_of_false (by simp) fun h => hold h.1

theorem not_expired_of_eq_none (hq : Consistent q) (hnone : q.expired now = none)
    {c : QueueConnectionElementType} (hc : getConnectionByFd q fd = some c) : ¬ Expired now c := by
  obtain ⟨i, hi, rfl, -⟩ := (getConnectionByFd_eq_some hq.exact).mp hc
  have hpos : 0 < q.currentSize := by omega
  have hroot : ¬ Expired now (q.connections 0) := fun hold => by
    rw [(expired_eq_some hq.sized).mpr ⟨hpos, hold, rfl⟩] at hnone
    cases hnone
  have hle : (q.connections 0).priorityTime ≤ (q.connections i).priorityTime :=
    hq.ordered.peekOldest (q.connections 0) (if_neg (by omega)) i hi
  intro hold
  unfold Expired difftime at *
  omega

/-- Taking the root off keeps the queue consistent: the last record is put where it has no parent. -/
theorem Consistent.dequeue_root (hq : Consistent q) (hpos : 0 < q.currentSize) :
    Consistent (dequeueConnectionByFd q (q.fd 0)) := by
  obtain ⟨he, hs, -⟩ := dequeueConnectionByFd_spec hq.exact hq.sized (q.fd 0)
  refine ⟨he, hs, (dequeueConnectionByFd_heapOrdered_iff hq.exact hq.ordered _).mpr ?_⟩
  rintro ⟨index, hi, hne, -⟩
  rw [hq.exact.pos_name 0 hpos] at hi
  exact hne (Option.some.inj hi).symm

/-- `q'` is `q` without its expired connections. -/
structure SweptOf (now : ℤ) (q q' : QueueConnectionsType) : Prop where
  consistent : Consistent q'
  map : ∀ fd, getConnectionByFd q' fd =
    (getConnectionByFd q fd).filter fun c => ¬ Expired now c

/-- **The timeout sweep** ends. It closes exactly the connections that have expired, each once, and
leaves the queue without them. -/
theorem sweep_spec (options : Options) (q : QueueConnectionsType) (now : ℤ) (hq : Consistent q) :
    ∃ (closed : List ℕ) (q' : QueueConnectionsType),
      Worker.sweeps options (closed.length + 1) ⟨q, .sweeping now⟩ =
        some (⟨q', .waiting⟩, closed.map fun fd => (fd, .closed)) ∧
      closed.Nodup ∧
      (∀ fd, fd ∈ closed ↔ ∃ c, getConnectionByFd q fd = some c ∧ Expired now c) ∧
      SweptOf now q q' := by
  induction hn : q.currentSize using Nat.strong_induction_on generalizing q with
  | _ n ih =>
    cases hexpired : q.expired now with
    | none =>
      -- the test fails: nothing is left to close
      have hopen : ∀ fd c, getConnectionByFd q fd = some c → ¬ Expired now c :=
        fun fd c hc => not_expired_of_eq_none hq hexpired hc
      refine ⟨[], q, ?_, List.nodup_nil, fun fd => ?_, hq, fun fd => ?_⟩
      · simp [Worker.sweeps, Worker.step, hexpired]
      · refine iff_of_false List.not_mem_nil ?_
        rintro ⟨c, hc, hold⟩
        exact hopen fd c hc hold
      · cases hc : getConnectionByFd q fd with
        | none => rfl
        | some c => simp [Option.filter, hopen fd c hc]
    | some root =>
      obtain ⟨hpos, hold, rfl⟩ := (expired_eq_some hq.sized).mp hexpired
      have hi := hq.exact.pos_name 0 hpos
      have hexists : existsConnection q (q.fd 0) = true := existsConnection_eq_true.mpr ⟨0, hi⟩
      have hroot := getConnectionByFd_fd hq.exact hpos
      obtain ⟨-, -, hmap⟩ := dequeueConnectionByFd_spec hq.exact hq.sized (q.fd 0)
      have hsize := dequeueConnectionByFd_currentSize hq.exact hi
      obtain ⟨closed, q', hsweeps, hnodup, hclosed, hswept⟩ :=
        ih _ (by omega) (dequeueConnectionByFd q (q.fd 0)) (hq.dequeue_root hpos) rfl
      refine ⟨q.fd 0 :: closed, q', ?_, ?_, fun fd => ?_, hswept.consistent, fun fd => ?_⟩
      · rw [List.length_cons, Worker.sweeps]
        simp only [Worker.step, hexpired, hexists, if_true, Option.bind_some, hsweeps,
          Option.map_some, List.map_cons, List.singleton_append]
      · refine List.nodup_cons.mpr ⟨fun hmem => ?_, hnodup⟩
        obtain ⟨c, hc, -⟩ := (hclosed (q.fd 0)).mp hmem
        rw [hmap, Function.update_self] at hc
        cases hc
      · rw [List.mem_cons, hclosed, hmap]
        by_cases hfd : fd = q.fd 0
        · subst hfd
          exact iff_of_true (Or.inl rfl) ⟨_, hroot, hold⟩
        · rw [Function.update_of_ne hfd]
          exact or_iff_right hfd
      · rw [hswept.map, hmap]
        by_cases hfd : fd = q.fd 0
        · subst hfd
          rw [Function.update_self, hroot]
          simp [Option.filter, hold]
        · rw [Function.update_of_ne hfd]

theorem consistent_create : Consistent createQueueConnections :=
  ⟨indexExact_createQueueConnections, sized_createQueueConnections, heapOrdered_create⟩

theorem Consistent.enqueue (h : Consistent q) {c : QueueConnectionElementType}
    (hfd : ClientFd c.clientFd) (habs : q.indexQueue c.clientFd = none)
    (ht : ¬ ShiftUpTurns q c.priorityTime q.currentSize) : Consistent (enqueueConnection q c) := by
  have hfull := (h.sized.not_full h.exact).ne
  exact ⟨(enqueueConnection_indexExact_iff h.exact hfull habs).mpr ht,
    enqueueConnection_sized h.sized hfull ht hfd, enqueueConnection_heapOrdered h.ordered hfull ht⟩

end Sweep

/-- A client accepted at time 0. -/
def oneClient : QueueConnectionsType :=
  enqueueConnection createQueueConnections (freshConnection 5 0 .zeroed)

/-- Another one 50 seconds later. -/
def twoClients : QueueConnectionsType := enqueueConnection oneClient (freshConnection 6 50 .zeroed)

theorem consistent_oneClient : Consistent oneClient :=
  consistent_create.enqueue (by decide) rfl (by decide)

theorem consistent_twoClients : Consistent twoClients :=
  consistent_oneClient.enqueue (by decide) (by decide +kernel) (by decide +kernel)

/-- The sweep a minute after the first client came. -/
theorem sweep_twoClients :
    ∃ (closed : List ℕ) (q' : QueueConnectionsType),
      Worker.sweeps wwwOptions (closed.length + 1) ⟨twoClients, .sweeping 60⟩ =
        some (⟨q', .waiting⟩, closed.map fun fd => (fd, .closed)) ∧
      closed.Nodup ∧
      (∀ fd, fd ∈ closed ↔ ∃ c, getConnectionByFd twoClients fd = some c ∧ Expired 60 c) ∧
      SweptOf 60 twoClients q' :=
  sweep_spec wwwOptions twoClients 60 consistent_twoClients

/-! ### The timeout of `epoll_wait` -/

/-- The value of a `time_t` stored in an `int`. -/
def narrowToInt (x : ℤ) : ℤ := Int.bmod x (2 ^ 32)

/-- The argument `timeout` of `epoll_wait`, computed from the root before the sweep. -/
def epollTimeout (q : QueueConnectionsType) (now : ℤ) : ℤ :=
  match peekQueueConnections q with
  | none => -1
  | some first =>
    if first.clientFd ≠ 0 then narrowToInt ((now - first.priorityTime) * 1000) else -1

/-- The times of the queued connections. -/
def QueueConnectionsType.times (q : QueueConnectionsType) : Set ℤ :=
  {t | ∃ i < q.currentSize, q.time i = t}

/-- The times of the connections that a sweep at `now` leaves. -/
def QueueConnectionsType.timesLeft (q : QueueConnectionsType) (now : ℤ) : Set ℤ :=
  {t ∈ q.times | now - t < keepAliveTimeout}

/-- **Wake-up bound.** After the sweep, `epoll_wait` blocks for ever exactly when the queue is empty;
otherwise it waits at most until the oldest connection expires. -/
def WakeUpBound (options : Options) (q : QueueConnectionsType) (now : ℤ) : Prop :=
  ∃ n q' effects, Worker.sweeps options n ⟨q, .sweeping now⟩ = some (⟨q', .waiting⟩, effects) ∧
    (epollTimeout q now = -1 ↔ q'.currentSize = 0) ∧
    ∀ p, IsLeast q'.times p →
      0 ≤ epollTimeout q now ∧ epollTimeout q now < 2 ^ 31 ∧
        (p ≤ now → epollTimeout q now ≤ 1000 * (keepAliveTimeout - (now - p)))

/-- The age of the oldest connection, of time `p₀`, in milliseconds, as far as an `int` shows it. -/
def lowAge (now p₀ : ℤ) : ℤ := (now - p₀) * 1000 % 2 ^ 32

/-- The queue is empty, or its oldest connection is at most 30 seconds old, or the clock has been set
back so far that the age wraps around, or the oldest connection has expired and its age is, after
wrapping around, no more than the time that the next one has left. -/
def WakesInTime (q : QueueConnectionsType) (now : ℤ) : Prop :=
  ∀ p₀, IsLeast q.times p₀ →
    (0 ≤ now - p₀ ∧ now - p₀ ≤ 30) ∨
    (now < p₀ ∧ lowAge now p₀ < 2 ^ 31) ∨
    (keepAliveTimeout ≤ now - p₀ ∧ ∃ p, IsLeast (q.timesLeft now) p ∧
      ((now < p ∧ lowAge now p₀ < 2 ^ 31) ∨
        (p ≤ now ∧ lowAge now p₀ ≤ 1000 * (keepAliveTimeout - (now - p)))))

section Timeout

variable {options : Options} {q q' : QueueConnectionsType} {now p p₀ : ℤ}

theorem sweeps_unique {n m : ℕ} {w w₁ w₂ : Worker} {effects₁ effects₂ : List (ℕ × Effect)}
    (h₁ : Worker.sweeps options n w = some (w₁, effects₁)) (hw₁ : w₁.phase = .waiting)
    (h₂ : Worker.sweeps options m w = some (w₂, effects₂)) (hw₂ : w₂.phase = .waiting) :
    w₁ = w₂ := by
  have hstop : ∀ w : Worker, w.phase = .waiting → w.step options .sweep = none := by
    intro w hw
    simp only [Worker.step, hw]
  induction n generalizing m w effects₁ effects₂ with
  | zero =>
    obtain ⟨rfl, -⟩ := Prod.mk.inj (Option.some.inj h₁)
    cases m with
    | zero => exact (Prod.mk.inj (Option.some.inj h₂)).1
    | succ m =>
      rw [Worker.sweeps, hstop w hw₁] at h₂
      cases h₂
  | succ n ih =>
    rw [Worker.sweeps] at h₁
    obtain ⟨⟨w', effects⟩, hstep, h₁⟩ := Option.bind_eq_some_iff.mp h₁
    obtain ⟨⟨w₁', effects₁'⟩, hn, h₁⟩ := Option.map_eq_some_iff.mp h₁
    obtain ⟨rfl, -⟩ := Prod.mk.inj h₁
    cases m with
    | zero =>
      obtain ⟨rfl, -⟩ := Prod.mk.inj (Option.some.inj h₂)
      rw [hstop w hw₂] at hstep
      cases hstep
    | succ m =>
      rw [Worker.sweeps, hstep] at h₂
      obtain ⟨⟨w₂', effects₂'⟩, hm, h₂⟩ := Option.map_eq_some_iff.mp h₂
      obtain ⟨rfl, -⟩ := Prod.mk.inj h₂
      exact ih hn hm

theorem times_nonempty : q.times.Nonempty ↔ q.currentSize ≠ 0 := by
  constructor
  · rintro ⟨t, i, hi, -⟩
    omega
  · intro h
    exact ⟨q.time 0, 0, Nat.pos_of_ne_zero h, rfl⟩

theorem isLeast_root (ho : HeapOrdered q) (hpos : q.currentSize ≠ 0) :
    IsLeast q.times (q.time 0) := by
  refine ⟨⟨0, Nat.pos_of_ne_zero hpos, rfl⟩, ?_⟩
  rintro t ⟨i, hi, rfl⟩
  exact ho.peekOldest (q.connections 0) (if_neg hpos) i hi

theorem SweptOf.times_eq (h : SweptOf now q q') (hq : Consistent q) :
    q'.times = q.timesLeft now := by
  have hcut : ∀ c, ¬ Expired now c ↔ now - c.priorityTime < keepAliveTimeout := by
    intro c
    unfold Expired difftime
    omega
  ext t
  constructor
  · rintro ⟨i, hi, rfl⟩
    have hmem := getConnectionByFd_fd h.consistent.exact hi
    rw [h.map] at hmem
    obtain ⟨hc, hleft⟩ := Option.filter_eq_some_iff.mp hmem
    obtain ⟨j, hj, hcj, -⟩ := (getConnectionByFd_eq_some hq.exact).mp hc
    refine ⟨⟨j, hj, congrArg QueueConnectionElementType.priorityTime hcj⟩, ?_⟩
    exact (hcut _).mp (of_decide_eq_true hleft)
  · rintro ⟨⟨j, hj, rfl⟩, hleft⟩
    have hmem : getConnectionByFd q' (q.fd j) = some (q.connections j) := by
      rw [h.map, getConnectionByFd_fd hq.exact hj]
      exact Option.filter_eq_some_iff.mpr ⟨rfl, decide_eq_true ((hcut _).mpr hleft)⟩
    obtain ⟨i, hi, hci, -⟩ := (getConnectionByFd_eq_some h.consistent.exact).mp hmem
    exact ⟨i, hi, congrArg QueueConnectionElementType.priorityTime hci⟩

theorem exists_isLeast_timesLeft (hq : Consistent q)
    (hleft : (q.timesLeft now).Nonempty) : ∃ p, IsLeast (q.timesLeft now) p := by
  obtain ⟨closed, q', -, -, -, hswept⟩ := sweep_spec ⟨[]⟩ q now hq
  rw [← hswept.times_eq hq] at hleft ⊢
  exact ⟨_, isLeast_root hswept.consistent.ordered (times_nonempty.mp hleft)⟩

theorem epollTimeout_eq (hs : Sized q) (hpos : q.currentSize ≠ 0) :
    epollTimeout q now =
      if lowAge now (q.time 0) < 2 ^ 31 then lowAge now (q.time 0)
      else lowAge now (q.time 0) - 2 ^ 32 := by
  have hfd : (q.connections 0).clientFd ≠ 0 :=
    Nat.ne_of_gt (hs.clientFd 0 (Nat.pos_of_ne_zero hpos)).1
  unfold epollTimeout peekQueueConnections
  rw [if_neg hpos]
  simp only [ne_eq, hfd, not_false_eq_true, if_true]
  rfl

/-- A value narrowed to an `int` is a bound between 0 and `limit` when its low 32 bits are. -/
theorem narrowed_bound {low limit : ℤ} (h₀ : 0 ≤ low) (h₁ : low < 2 ^ 32) (P : Prop) :
    (0 ≤ (if low < 2 ^ 31 then low else low - 2 ^ 32) ∧
      (if low < 2 ^ 31 then low else low - 2 ^ 32) < 2 ^ 31 ∧
        (P → (if low < 2 ^ 31 then low else low - 2 ^ 32) ≤ limit)) ↔
      low < 2 ^ 31 ∧ (P → low ≤ limit) := by
  by_cases h : low < 2 ^ 31
  · simp only [if_pos h]
    exact and_iff_right h₀
  · simp only [if_neg h]
    refine iff_of_false (fun hb => ?_) fun hb => h hb.1
    omega

/-- The bound for the connection of time `p`, when the oldest one, of time `p₀`, is not to be
closed. -/
theorem bound_unswept (hage : now - p₀ < keepAliveTimeout) :
    (lowAge now p₀ < 2 ^ 31 ∧
      (p₀ ≤ now → lowAge now p₀ ≤ 1000 * (keepAliveTimeout - (now - p₀)))) ↔
      (0 ≤ now - p₀ ∧ now - p₀ ≤ 30) ∨ (now < p₀ ∧ lowAge now p₀ < 2 ^ 31) := by
  unfold keepAliveTimeout at *
  by_cases hpast : p₀ ≤ now
  · have hlow : lowAge now p₀ = (now - p₀) * 1000 := by
      unfold lowAge
      exact Int.emod_eq_of_lt (by omega) (by omega)
    rw [hlow]
    omega
  · omega

/-- The bound for the connection of time `p`, once the oldest one has been closed. -/
theorem bound_swept (hleft : now - p < keepAliveTimeout) :
    (lowAge now p₀ < 2 ^ 31 ∧
      (p ≤ now → lowAge now p₀ ≤ 1000 * (keepAliveTimeout - (now - p)))) ↔
      (now < p ∧ lowAge now p₀ < 2 ^ 31) ∨
        (p ≤ now ∧ lowAge now p₀ ≤ 1000 * (keepAliveTimeout - (now - p))) := by
  unfold keepAliveTimeout at *
  by_cases hpast : p ≤ now <;> omega

/-- **The wake-up bound** on the queue as it is before the sweep. -/
theorem wakeUpBound_iff_timesLeft (options : Options) (now : ℤ) (hq : Consistent q) :
    WakeUpBound options q now ↔
      (epollTimeout q now = -1 ↔ ¬ (q.timesLeft now).Nonempty) ∧
      ∀ p, IsLeast (q.timesLeft now) p →
        0 ≤ epollTimeout q now ∧ epollTimeout q now < 2 ^ 31 ∧
          (p ≤ now → epollTimeout q now ≤ 1000 * (keepAliveTimeout - (now - p))) := by
  obtain ⟨closed, q', hsweeps, -, -, hswept⟩ := sweep_spec options q now hq
  rw [← hswept.times_eq hq, times_nonempty, not_not]
  constructor
  · rintro ⟨n, q'', effects, hn, hbound⟩
    have hsame := sweeps_unique hn rfl hsweeps rfl
    obtain rfl : q'' = q' := congrArg Worker.queue hsame
    exact hbound
  · intro hbound
    exact ⟨_, q', _, hsweeps, hbound⟩

/-- The low bits of a multiple of 1000 are even, those of -1 are not. -/
theorem epollTimeout_ne_neg_one (hs : Sized q) (hpos : q.currentSize ≠ 0) :
    epollTimeout q now ≠ -1 := by
  have heven : lowAge now (q.time 0) % 2 = 0 := by
    unfold lowAge
    omega
  rw [epollTimeout_eq hs hpos]
  split <;> omega

/-- With nothing queued, before and after the sweep, the thread blocks. -/
theorem wakesInTime_empty (options : Options) (now : ℤ) (hq : Consistent q)
    (hsize : q.currentSize = 0) :
    WakeUpBound options q now ∧ WakesInTime q now := by
  have hempty : ¬ q.times.Nonempty := fun h => times_nonempty.mp h hsize
  have htimeout : epollTimeout q now = -1 := by
    unfold epollTimeout peekQueueConnections
    rw [if_pos hsize]
  refine ⟨(wakeUpBound_iff_timesLeft options now hq).mpr ⟨iff_of_true htimeout ?_, fun p hp => ?_⟩,
    fun p₀ hp₀ => ?_⟩
  · rintro ⟨t, ht, -⟩
    exact hempty ⟨t, ht⟩
  · exact absurd ⟨p, hp.1.1⟩ hempty
  · exact absurd ⟨p₀, hp₀.1⟩ hempty

/-- A thread with connections never blocks, so the bound speaks of the oldest connection left, which
there must be. -/
theorem wakeUpBound_iff_oldestLeft (options : Options) (hq : Consistent q)
    (hsize : q.currentSize ≠ 0) :
    WakeUpBound options q now ↔
      ∃ p, IsLeast (q.timesLeft now) p ∧ lowAge now (q.time 0) < 2 ^ 31 ∧
        (p ≤ now → lowAge now (q.time 0) ≤ 1000 * (keepAliveTimeout - (now - p))) := by
  have hlow₀ : 0 ≤ lowAge now (q.time 0) := Int.emod_nonneg _ (by decide)
  have hlow₁ : lowAge now (q.time 0) < 2 ^ 32 := Int.emod_lt_of_pos _ (by decide)
  rw [wakeUpBound_iff_timesLeft options now hq,
    iff_false_left (epollTimeout_ne_neg_one hq.sized hsize), not_not, epollTimeout_eq hq.sized hsize]
  simp only [narrowed_bound hlow₀ hlow₁]
  constructor
  · rintro ⟨hleft, hbound⟩
    obtain ⟨p, hp⟩ := exists_isLeast_timesLeft hq hleft
    exact ⟨p, hp, hbound p hp⟩
  · rintro ⟨p, hp, hbound⟩
    refine ⟨⟨p, hp.1⟩, fun p' hp' => ?_⟩
    rw [hp'.unique hp]
    exact hbound

/-- **The wake-up bound** holds exactly of the queues and times that wake in time. -/
theorem wakesInTime_iff (options : Options) (q : QueueConnectionsType) (now : ℤ)
    (hq : Consistent q) : WakeUpBound options q now ↔ WakesInTime q now := by
  by_cases hsize : q.currentSize = 0
  · obtain ⟨hbound, hwakes⟩ := wakesInTime_empty options now hq hsize
    exact iff_of_true hbound hwakes
  · have hroot := isLeast_root hq.ordered hsize
    have hat : WakesInTime q now ↔ _ := ⟨fun h => h _ hroot, fun h p₀ hp₀ => by
      rw [hp₀.unique hroot]
      exact h⟩
    rw [wakeUpBound_iff_oldestLeft options hq hsize, hat]
    by_cases hage : keepAliveTimeout ≤ now - q.time 0
    · -- the oldest connection is closed
      have hnot : ¬ ((0 ≤ now - q.time 0 ∧ now - q.time 0 ≤ 30) ∨
          (now < q.time 0 ∧ lowAge now (q.time 0) < 2 ^ 31)) := by
        unfold keepAliveTimeout at hage
        generalize q.time 0 = p₀ at *
        omega
      rw [← or_assoc, or_iff_right hnot, and_iff_right hage]
      refine exists_congr fun p => and_congr_right fun hp => ?_
      exact bound_swept hp.1.2
    · -- nothing is closed
      have hleft : IsLeast (q.timesLeft now) (q.time 0) :=
        ⟨⟨hroot.1, not_le.mp hage⟩, fun t ht => hroot.2 ht.1⟩
      rw [← or_assoc, or_iff_left fun h => hage h.1, ← bound_unswept (not_le.mp hage)]
      constructor
      · rintro ⟨p, hp, hbound⟩
        rw [hp.unique hleft] at hbound
        exact hbound
      · intro hbound
        exact ⟨_, hleft, hbound⟩

end Timeout

/-- With one client, 20 seconds old, the thread sleeps for 20 of the 40 seconds left. -/
theorem wakeUpBound_oneClient : WakeUpBound wwwOptions oneClient 20 := by
  refine (wakesInTime_iff wwwOptions oneClient 20 consistent_oneClient).mpr fun p₀ hp₀ => ?_
  rw [hp₀.unique (isLeast_root consistent_oneClient.ordered (by decide +kernel))]
  exact Or.inl (by decide +kernel)

/-- When it is 40 seconds old, the thread sleeps for 40 seconds, 20 too many. -/
theorem wakeUpBound_late :
    ¬ ∀ (options : Options) (q : QueueConnectionsType) (now : ℤ), Consistent q →
      WakeUpBound options q now := by
  intro h
  have hbound := h wwwOptions oneClient 40 consistent_oneClient
  rw [wakeUpBound_iff_timesLeft wwwOptions 40 consistent_oneClient] at hbound
  have hroot := isLeast_root consistent_oneClient.ordered (by decide +kernel)
  have hleft : IsLeast (oneClient.timesLeft 40) (oneClient.time 0) :=
    ⟨⟨hroot.1, by decide +kernel⟩, fun t ht => hroot.2 ht.1⟩
  obtain ⟨-, -, hle⟩ := hbound.2 _ hleft
  exact absurd (hle (by decide +kernel)) (by decide +kernel)

end UbServer

import UbServer.Queue.Refine

/-!
# The heap order over runs

`heapify` restores the order below the slot it starts from (`heapify_ordered`). That is enough for
an enqueue and for a refresh, since no record is stamped later than the clock. It is not enough for
`dequeueConnectionByFd`: the last record may come from a subtree with earlier times than those above
the hole, and nothing shifts it up. `LastBeforeParent` says when.
-/

namespace UbServer

open MinHeap Runs QueueConnectionsType

/-! ### Shift down -/

section Heapify

variable {q : QueueConnectionsType} {index : ℕ}

theorem isChild_heap_iff {c p : ℕ} : IsChild c p ↔ c = leftChildHeap p ∨ c = rightChildHeap p := by
  rw [isChild_iff]; rfl

theorem smallest_spec (q : QueueConnectionsType) (index : ℕ) :
    (q.smallest index = index ∧
      ∀ d < q.currentSize, IsChild d index → q.time index ≤ q.time d) ∨
    (IsChild (q.smallest index) index ∧ q.time (q.smallest index) < q.time index ∧
      ∀ d < q.currentSize, IsChild d index → q.time (q.smallest index) ≤ q.time d) := by
  simp only [isChild_heap_iff]
  unfold smallest leftChildHeap rightChildHeap difftime
  grind

theorem swapRepaired_time (q : QueueConnectionsType) (i j : ℕ) :
    (q.swapRepaired i j).time = swapAt q.time i j :=
  comp_swapAt QueueConnectionElementType.priorityTime q.connections i j

/-- A sift down from a hole of a region that is closed under children orders the region. -/
theorem heapify_ordered {R : Set ℕ} (hR : ∀ i ∈ R, 0 < i) (q : QueueConnectionsType) (index : ℕ)
    (hdown : ∀ i, i = index ∨ i ∈ R → ∀ d, IsChild d i → d ∈ R)
    (h : DownOrder R q.time q.currentSize index) :
    Ordered R (heapify q index).time (heapify q index).currentSize := by
  induction q, index using heapify.induct with
  | case1 q index smallest hne ih =>
    rw [heapify, if_pos hne]
    rcases smallest_spec q index with ⟨he, -⟩ | ⟨hc, hlt, hmin⟩
    · exact absurd he hne
    · have hcR := hdown index (Or.inl rfl) _ hc
      refine ih (fun i hi d hd => hdown i (Or.inr ?_) d hd) ?_
      · rcases hi with rfl | hi
        · exact hcR
        · exact hi
      · rw [swapRepaired_time]
        exact h.swap hR (fun i hi d hd => hdown i (Or.inr hi) d hd) hcR hc
          (q.smallest_bounds hne).2 hlt hmin
  | case2 q index smallest hne =>
    rw [heapify, if_neg hne]
    rcases smallest_spec q index with ⟨-, hmin⟩ | ⟨hc, -⟩
    · exact h.finish hR hmin
    · exact absurd (not_not.mp hne) hc.lt.ne'

end Heapify

/-- The heap order of the whole queue. -/
def HeapOrdered (q : QueueConnectionsType) : Prop :=
  ∀ i, 0 < i → i < q.currentSize →
    (q.connections (parentHeap i)).priorityTime ≤ (q.connections i).priorityTime

/-- `peekQueueConnections` gives a record with the smallest time. -/
def PeekOldest (q : QueueConnectionsType) : Prop :=
  ∀ c, peekQueueConnections q = some c →
    ∀ i < q.currentSize, c.priorityTime ≤ (q.connections i).priorityTime

section HeapOrdered

variable {q q' : QueueConnectionsType} {index : ℕ} {connection : QueueConnectionElementType}
  {now clock : ℤ} {fd : ℕ}

theorem heapOrdered_iff : HeapOrdered q ↔ Ordered (Set.Ioi 0) q.time q.currentSize :=
  ⟨fun h i hi hpos => h i hpos hi, fun h i hpos hi => h i hi hpos⟩

theorem HeapOrdered.peekOldest (h : HeapOrdered q) : PeekOldest q := by
  intro c hc i hi
  unfold peekQueueConnections at hc
  split at hc
  · cases hc
  · obtain rfl := Option.some.inj hc
    exact (heapOrdered_iff.mp h).root_le i hi

theorem heapify_heapOrdered (h : DownOrder (Set.Ioi 0) q.time q.currentSize index) :
    HeapOrdered (heapify q index) :=
  heapOrdered_iff.mpr (heapify_ordered (fun _ hi => hi) q index
    (fun _ _ _ hd => hd.1) h)

theorem setConnection_time_of_ne {i : ℕ} (h : i ≠ index) :
    (q.setConnection index connection).time i = q.time i := by
  simp [QueueConnectionsType.time, setConnection, h]

theorem setConnection_time_self :
    (q.setConnection index connection).time index = connection.priorityTime := by
  simp [QueueConnectionsType.time, setConnection]

theorem heapOrdered_create : HeapOrdered createQueueConnections :=
  fun _ _ hi => absurd hi (Nat.not_lt_zero _)

theorem enqueueConnection_heapOrdered (h : HeapOrdered q) (hfull : q.currentSize ≠ q.capacity)
    (ht : ¬ ShiftUpTurns q connection.priorityTime q.currentSize) :
    HeapOrdered (enqueueConnection q connection) := by
  rw [enqueueConnection_of_not_turns hfull ht, heapOrdered_iff]
  refine (heapOrdered_iff.mp h).push (fun _ hi => hi) (fun i hi => ?_) fun hpos => ?_
  · simp [QueueConnectionsType.time, setIndex, appended, setConnection, hi.ne]
  · have hpos : 0 < q.currentSize := hpos
    have hle : q.time (parentHeap q.currentSize) ≤ connection.priorityTime := by
      simp only [ShiftUpTurns, difftime, not_and, not_lt] at ht
      have := ht hpos.ne'
      omega
    show q.time (parentHeap q.currentSize) ≤
      (Function.update q.connections q.currentSize connection q.currentSize).priorityTime
    rw [Function.update_self]
    exact hle

theorem updateQueueConnection_heapOrdered {mem : RequestBlock} (h : HeapOrdered q)
    (hi : q.indexQueue fd = some index) (hin : index < q.currentSize) (hle : q.time index ≤ now)
    (hq' : updateQueueConnection q fd now mem = some q') : HeapOrdered q' := by
  unfold updateQueueConnection at hq'
  rw [hi] at hq'
  dsimp only [Option.map_some] at hq'
  rw [if_neg (by unfold difftime; omega)] at hq'
  obtain rfl := Option.some.inj hq'
  refine heapify_heapOrdered ((heapOrdered_iff.mp h).raise (fun _ hi => hi)
    (fun d hd _ => hd.1) ?_ (fun i _ hne => setConnection_time_of_ne hne) hin)
  rw [setConnection_time_self]
  exact hle

theorem setConnection_heapOrdered (h : HeapOrdered q)
    (he : connection.priorityTime = q.time index) :
    HeapOrdered (q.setConnection index connection) := by
  have htime : (q.setConnection index connection).time = q.time := by
    funext i
    by_cases hi : i = index
    · subst hi; rw [setConnection_time_self, he]
    · exact setConnection_time_of_ne hi
  rw [heapOrdered_iff, htime]
  exact heapOrdered_iff.mp h

/-! ### Removal from the middle -/

/-- Removing `fd` moves the last record into a slot whose parent is later than that record. -/
def LastBeforeParent (q : QueueConnectionsType) (fd : ℕ) : Prop :=
  ∃ index, q.indexQueue fd = some index ∧ index ≠ 0 ∧ index ≠ q.currentSize - 1 ∧
    q.time (q.currentSize - 1) < q.time (parentHeap index)

instance (q : QueueConnectionsType) (fd : ℕ) : Decidable (LastBeforeParent q fd) :=
  match hi : q.indexQueue fd with
  | none => isFalse fun ⟨_, hj, _⟩ => by rw [hi] at hj; cases hj
  | some index =>
    decidable_of_iff (index ≠ 0 ∧ index ≠ q.currentSize - 1 ∧
        q.time (q.currentSize - 1) < q.time (parentHeap index))
      ⟨fun h => ⟨index, hi, h⟩, fun ⟨_, hj, h⟩ => Option.some.inj (hi.symm.trans hj) ▸ h⟩

theorem replaced_time {k : ℕ} (hk : k < q.currentSize - 1) :
    (replaced q index).time k =
      if k = index then q.time (q.currentSize - 1) else q.time k := by
  have hne : k ≠ q.currentSize - 1 := hk.ne
  by_cases hki : k = index
  · subst hki
    simp [QueueConnectionsType.time, replaced, setIndex, setConnection, Function.update_of_ne hne]
  · simp [QueueConnectionsType.time, replaced, setIndex, setConnection,
      Function.update_of_ne hne, hki]

/-- The heap with the last record over the slot `index`, when that record is not before the slot's
parent. -/
theorem replaced_downOrder (h : HeapOrdered q) (hin : index < q.currentSize - 1)
    (hle : index ≠ 0 → q.time (parentHeap index) ≤ q.time (q.currentSize - 1)) :
    DownOrder (Set.Ioi 0) (replaced q index).time (q.currentSize - 1) index := by
  constructor
  · intro i hi hpos hp
    have hpos : 0 < i := hpos
    have hlt := parent_lt hpos
    rw [replaced_time (show parent i < _ by omega), if_neg hp, replaced_time hi]
    split
    · rename_i hii
      subst hii
      exact hle hpos.ne'
    · exact h i hpos (by omega)
  · intro hpos d hd hc
    have hpos : 0 < index := hpos
    have hlt := parent_lt hpos
    have hid := hc.lt
    rw [replaced_time (show parent index < _ by omega), if_neg (by omega), replaced_time hd,
      if_neg (by omega)]
    have h1 := h index hpos (by omega)
    have h2 := h d hc.1 (by omega)
    rw [show parentHeap d = index from hc.2] at h2
    exact h1.trans h2

/-- The converse: a last record before the slot's parent stays where it is put. -/
theorem replaced_stays (h : HeapOrdered q) (hin : index < q.currentSize - 1) (h0 : index ≠ 0)
    (hlt : q.time (q.currentSize - 1) < q.time (parentHeap index)) :
    heapify (replaced q index) index = replaced q index := by
  have hsize : (replaced q index).currentSize = q.currentSize - 1 := rfl
  rw [heapify, if_neg]
  rw [not_not]
  rcases smallest_spec (replaced q index) index with ⟨he, -⟩ | ⟨hc, hless, -⟩
  · exact he
  · have hb := (replaced q index).smallest_bounds hc.lt.ne'
    rw [hsize] at hb
    rw [replaced_time hb.2, if_neg hb.1.ne', replaced_time hin, if_pos rfl] at hless
    have h1 := h index (by omega) (by omega)
    have h2 := h _ hc.1 (show (replaced q index).smallest index < q.currentSize by omega)
    rw [show parentHeap _ = index from hc.2] at h2
    have h3 : q.time (parentHeap index) ≤ q.time ((replaced q index).smallest index) := h1.trans h2
    exact absurd (hlt.trans_le h3) hless.not_gt

theorem dropped_heapOrdered (h : HeapOrdered q) : HeapOrdered (dropped q) := by
  rw [heapOrdered_iff] at *
  refine h.shrink (fun _ hi => hi) (Nat.sub_le _ 1) fun i hi => ?_
  have hi : i < q.currentSize - 1 := hi
  simp [QueueConnectionsType.time, dropped, setIndex, setConnection, hi.ne]

/-- **Removal and the heap order.** -/
theorem dequeueConnectionByFd_heapOrdered_iff (he : q.IndexExact) (h : HeapOrdered q) (fd : ℕ) :
    HeapOrdered (dequeueConnectionByFd q fd) ↔ ¬ LastBeforeParent q fd := by
  cases hi : q.indexQueue fd with
  | none =>
    rw [dequeueConnectionByFd_of_none hi]
    exact iff_of_true h fun ⟨_, hj, _⟩ => by rw [hi] at hj; cases hj
  | some index =>
    have hin := (he.name_pos fd index hi).1
    rw [dequeueConnectionByFd_eq he hi]
    split
    · rename_i hlast
      refine iff_of_true (dropped_heapOrdered h) fun ⟨j, hj, _, hjl, _⟩ => ?_
      obtain rfl := Option.some.inj (hj.symm.trans hi)
      exact hjl hlast
    · rename_i hlast
      have hil : index < q.currentSize - 1 := by omega
      constructor
      · rintro ho ⟨j, hj, h0, -, hlt⟩
        obtain rfl := Option.some.inj (hj.symm.trans hi)
        rw [replaced_stays h hil h0 hlt] at ho
        have hp := parentHeap_lt h0
        have hle : (replaced q j).time (parentHeap j) ≤ (replaced q j).time j :=
          ho j (by omega) hil
        rw [replaced_time (by omega), if_neg hp.ne, replaced_time hil, if_pos rfl] at hle
        omega
      · intro hn
        refine heapify_heapOrdered (replaced_downOrder h hil fun h0 => ?_)
        by_contra hlt
        exact hn ⟨index, hi, h0, hlast, by omega⟩

end HeapOrdered

/-! ### Runs -/

/-- The call removes a descriptor whose slot is then given to a record before its parent. -/
def ClientOp.BreaksOrder (q : QueueConnectionsType) : ClientOp → Prop
  | .dequeueByFd fd => LastBeforeParent q fd
  | _ => False

instance (q : QueueConnectionsType) : DecidablePred (ClientOp.BreaksOrder q)
  | .dequeueByFd fd => inferInstanceAs (Decidable (LastBeforeParent q fd))
  | .getOrCreate .. | .change .. | .update .. | .exists _ => inferInstanceAs (Decidable False)

theorem getConnectionOrCreateByFd_heapOrdered {clock now : ℤ} {q q' : QueueConnectionsType}
    {fd index : ℕ} {mem : RequestBlock} (hw : WellTimed clock q) (hle : clock ≤ now)
    (h : HeapOrdered q) (hq' : getConnectionOrCreateByFd q fd now mem = some (q', index)) :
    HeapOrdered q' := by
  unfold getConnectionOrCreateByFd at hq'
  split at hq'
  · cases hi : q.indexQueue fd with
    | some i =>
      rw [hi] at hq'
      obtain ⟨rfl, -⟩ := Prod.mk.inj (Option.some.inj hq')
      exact h
    | none =>
      rw [hi] at hq'
      obtain ⟨i, -, he⟩ := Option.map_eq_some_iff.mp hq'
      obtain ⟨rfl, -⟩ := Prod.mk.inj he
      exact enqueueConnection_heapOrdered h hw.not_full.ne (hw.not_shiftUpTurns hle le_rfl)
  · cases hq'

/-- From an ordered heap, a call ends in an ordered heap exactly when it does not break it. -/
theorem clientStep_heapOrdered_iff {s s' : TimedQueue} {op : ClientOp} (hst : ClientStep s op s')
    (hw : WellTimed s.clock s.queue) (h : HeapOrdered s.queue) :
    HeapOrdered s'.queue ↔ ¬ op.BreaksOrder s.queue := by
  obtain ⟨⟨-, hle, hpresent⟩, happly, -⟩ := clientStep_inv hst
  cases op with
  | getOrCreate fd now mem =>
    obtain ⟨⟨q', index⟩, hq', rfl⟩ := Option.map_eq_some_iff.mp happly
    exact iff_of_true (getConnectionOrCreateByFd_heapOrdered hw hle h hq') id
  | change fd f =>
    obtain ⟨index, hi, hq'⟩ := Option.map_eq_some_iff.mp happly
    rw [← hq']
    exact iff_of_true (setConnection_heapOrdered h (f.property _).2) id
  | update fd now mem =>
    obtain ⟨index, hi⟩ := Option.isSome_iff_exists.mp hpresent
    have hin := (hw.exact.name_pos fd index hi).1
    exact iff_of_true
      (updateQueueConnection_heapOrdered h hi hin ((hw.past index hin).trans hle) happly) id
  | dequeueByFd fd =>
    rw [← show dequeueConnectionByFd s.queue fd = s'.queue from Option.some.inj happly]
    exact dequeueConnectionByFd_heapOrdered_iff hw.exact h fd
  | «exists» fd =>
    rw [← show s.queue = s'.queue from Option.some.inj happly]
    exact iff_of_true h id

/-- **The heap order over runs.** With a clock that does not go back, every state of a run is
heap-ordered, so that `peekQueueConnections` gives an oldest record, exactly when no removal of the
run moves the last record under a later parent. -/
theorem heapOrdered_iff_no_last_before_parent {clock : ℤ}
    {h : List (Transition TimedQueue ClientOp)} {s : TimedQueue}
    (hr : Run ClientStep (.init clock) h s) :
    Always (fun s => HeapOrdered s.queue ∧ PeekOldest s.queue) h ↔
      Guarded (fun s op => ¬ op.BreaksOrder s.queue) h := by
  have key := hr.forall_post_iff
    (show WellTimed clock createQueueConnections ∧ HeapOrdered createQueueConnections from
      ⟨wellTimed_create clock, heapOrdered_create⟩)
    (fun _ _ _ hst hw _ _ => (clientStep_spec hst hw).1)
    (fun _ _ _ hst hw ho => clientStep_heapOrdered_iff hst hw ho)
  rw [← key]
  exact forall₂_congr fun e _ => ⟨fun h => h.1, fun h => ⟨h, h.peekOldest⟩⟩

/-- Six clients arrive in the same second; two seconds later three of them have been refreshed in
turn, so that the left subtree is later than the right one. -/
def sixClients : List ClientOp :=
  (List.range' 1 6).map (ClientOp.getOrCreate · 100 .zeroed) ++
    [ClientOp.update 2 101 .zeroed, .update 4 101 .zeroed, .update 5 101 .zeroed]

/-- Removing an early client from that run keeps every state heap-ordered. -/
theorem heapOrdered_sixClients :
    Always (fun s => HeapOrdered s.queue ∧ PeekOldest s.queue)
      (history clientNext (.init 100) (sixClients ++ [.dequeueByFd 3])) :=
  (heapOrdered_iff_no_last_before_parent (run_of_isSome (by decide +kernel))).mpr
    (by decide +kernel)

/-- Removing descriptor 2 instead moves descriptor 6 from the right subtree below descriptor 5. Two
refreshes later `peekQueueConnections` gives descriptor 5, stamped 101, and descriptor 6, stamped
100, waits below it. -/
theorem dequeueByFd_breaks_order :
    ∃ h s, Run ClientStep (.init 100) h s ∧ ¬ HeapOrdered s.queue ∧ ¬ PeekOldest s.queue := by
  obtain ⟨h, s, hr, hp⟩ := exists_run_of_any clientNext (.init 100)
    (sixClients ++ [.dequeueByFd 2, .update 1 102 .zeroed, .update 3 102 .zeroed])
    (p := fun s => 1 < s.queue.currentSize ∧
      s.queue.time 1 < s.queue.time 0 ∧ peekQueueConnections s.queue = some (s.queue.connections 0))
    (by decide +kernel)
  obtain ⟨h1, hlt, hpeek⟩ := of_decide_eq_true hp
  exact ⟨h, s, hr, fun ho => hlt.not_ge (ho 1 (by decide) h1),
    fun hold => hlt.not_ge (hold _ hpeek 1 h1)⟩

end UbServer

import UbServer.Sweep

/-!
# The queue as a priority queue

`enqueueConnection` and `updateQueueConnection` order the heap again whatever `time(NULL)` returned,
and lose no record: their two shift-up loops repair every violation above the slot they start from
(`shiftUp_ordered`), although they do not repair the index entries of the records they pass.
`dequeueConnection` keeps the queue consistent, so that taking the first record off again and again
gives all of them in the order of their times.

* `QueueConnectionsType.records`: the records stored, each as often as it is stored.
* `siftUp_any_clock`: enqueue and update with an arbitrary clock.
* `drain`: the loop that peeks and dequeues until the queue is empty.
* `drain_sorted`: what it yields.
-/

namespace UbServer

open MinHeap QueueConnectionsType

/-- The records of the used slots, each as often as it is stored. -/
def QueueConnectionsType.records (q : QueueConnectionsType) : Multiset QueueConnectionElementType :=
  elements q.connections q.currentSize

/-! ### The shift-up loop -/

section ShiftUp

variable {q : QueueConnectionsType} {time : ℤ} {index : ℕ}

theorem swapConnectionElementHeap_time (q : QueueConnectionsType) (i j : ℕ) :
    (q.swapConnectionElementHeap i j).time = swapAt q.time i j :=
  comp_swapAt QueueConnectionElementType.priorityTime q.connections i j

theorem shiftUp_slot (q : QueueConnectionsType) (time : ℤ) (index : ℕ) :
    (shiftUp q time index).1.connections (shiftUp q time index).2 = q.connections index := by
  induction q, index using shiftUp.induct time with
  | case1 q index h ih =>
    rw [shiftUp_of_turns h, ih]
    exact swapAt_right _ _ _
  | case2 q index h => rw [shiftUp_of_not_turns h]

theorem shiftUp_records (time : ℤ) (h : index < q.currentSize) :
    (shiftUp q time index).1.records = q.records := by
  induction q, index using shiftUp.induct time with
  | case1 q index ht ih =>
    have hp := parentHeap_lt ht.1
    rw [shiftUp_of_turns ht, ih (hp.trans h)]
    exact elements_swapAt q.connections h (hp.trans h)
  | case2 q index ht => rw [shiftUp_of_not_turns ht]

/-- A shift up from a hole whose record is stamped `time` orders the heap. -/
theorem shiftUp_ordered (h : UpOrder q.time q.currentSize index) (hin : index < q.currentSize)
    (htime : q.time index = time) : HeapOrdered (shiftUp q time index).1 := by
  induction q, index using shiftUp.induct time with
  | case1 q index ht ih =>
    obtain ⟨h0, hlt⟩ := ht
    have hp := parentHeap_lt h0
    rw [shiftUp_of_turns ⟨h0, hlt⟩]
    refine ih ?_ (hp.trans hin) ?_
    · rw [swapConnectionElementHeap_time]
      refine h.swap (Nat.pos_of_ne_zero h0) hin ?_
      unfold difftime at hlt
      rw [htime]
      show time < q.time (parentHeap index)
      omega
    · rw [swapConnectionElementHeap_time, swapAt_right, htime]
  | case2 q index ht =>
    rw [shiftUp_of_not_turns ht, heapOrdered_iff]
    refine h.finish fun hpos => ?_
    have hle : ¬ difftime time (q.time (parentHeap index)) < 0 := fun hlt => ht ⟨hpos.ne', hlt⟩
    unfold difftime at hle
    rw [htime]
    show q.time (parentHeap index) ≤ time
    omega

theorem heapify_records (q : QueueConnectionsType) (index : ℕ) :
    (heapify q index).records = q.records := by
  induction q, index using heapify.induct with
  | case1 q index smallest hne ih =>
    have hb := q.smallest_bounds hne
    rw [heapify, if_pos hne, ih]
    exact elements_swapAt q.connections (hb.1.trans hb.2) hb.2
  | case2 q index smallest hne => rw [heapify, if_neg hne]

end ShiftUp

/-! ### Enqueue and update with any clock -/

/-- The record is in the used slot that the index array gives for its descriptor. -/
def StoredAt (q : QueueConnectionsType) (connection : QueueConnectionElementType) : Prop :=
  ∃ index < q.currentSize, q.indexQueue connection.clientFd = some index ∧
    q.connections index = connection

section AnyClock

variable {q q' : QueueConnectionsType} {connection : QueueConnectionElementType} {fd index : ℕ}
  {now : ℤ} {mem : RequestBlock}

theorem appended_records :
    (appended q connection).records = connection ::ₘ q.records := by
  have hself : (appended q connection).connections q.currentSize = connection :=
    Function.update_self _ _ _
  have hrest : ∀ i < q.currentSize, (appended q connection).connections i = q.connections i :=
    fun i hi => Function.update_of_ne hi.ne _ _
  show elements _ (q.currentSize + 1) = _
  rw [elements_succ, hself, elements_congr hrest]
  rfl

theorem appended_upOrder (h : HeapOrdered q) :
    UpOrder (appended q connection).time (q.currentSize + 1) q.currentSize := by
  have hrest : ∀ i < q.currentSize, (appended q connection).time i = q.time i := fun i hi => by
    simp [QueueConnectionsType.time, appended, setConnection, Function.update_of_ne hi.ne]
  constructor
  · intro i hi hpos hne
    have hp := parent_lt hpos
    rw [hrest i (by omega), hrest (parent i) (by omega)]
    exact h i hpos (by omega)
  · intro _ d hd hc
    have := hc.lt
    omega

/-- Enqueueing orders the heap again, wherever the new record has to go. -/
theorem enqueueConnection_siftUp (h : HeapOrdered q) (hfull : q.currentSize ≠ q.capacity) :
    HeapOrdered (enqueueConnection q connection) ∧
      (enqueueConnection q connection).records = connection ::ₘ q.records ∧
      StoredAt (enqueueConnection q connection) connection := by
  have hn : q.currentSize < (appended q connection).currentSize := Nat.lt_succ_self _
  have hself : (appended q connection).connections q.currentSize = connection :=
    Function.update_self _ _ _
  have htime : (appended q connection).time q.currentSize = connection.priorityTime :=
    congrArg QueueConnectionElementType.priorityTime hself
  rw [enqueueConnection_eq hfull]
  refine ⟨?_, ?_, (shiftUp (appended q connection) connection.priorityTime q.currentSize).2,
    ?_, Function.update_self _ _ _, ?_⟩
  · exact shiftUp_ordered (appended_upOrder h) hn htime
  · exact (shiftUp_records _ hn).trans appended_records
  · show _ < (shiftUp _ _ _).1.currentSize
    rw [(shiftUp_frame _ _ _).2.1]
    exact (shiftUp_le _ _ _).trans_lt hn
  · show (shiftUp _ _ _).1.connections _ = _
    rw [shiftUp_slot, hself]

/-- A queue in which the record of a slot has been replaced holds the new record instead of the
old one. -/
theorem setConnection_records (hin : index < q.currentSize) :
    q.connections index ::ₘ (q.setConnection index connection).records =
      connection ::ₘ q.records :=
  elements_update q.connections hin connection

/-- Refreshing a record orders the heap again, whether its time goes forward or back. -/
theorem updateQueueConnection_sift (now : ℤ) (mem : RequestBlock) (he : q.IndexExact)
    (h : HeapOrdered q) (hi : q.indexQueue fd = some index) :
    ∃ q', updateQueueConnection q fd now mem = some q' ∧ HeapOrdered q' ∧
      q.connections index ::ₘ q'.records = freshConnection fd now mem ::ₘ q.records ∧
      StoredAt q' (freshConnection fd now mem) := by
  obtain ⟨hin, hfd⟩ := he.name_pos fd index hi
  have hother : ∀ i < q.currentSize, i ≠ index →
      (q.setConnection index (freshConnection fd now mem)).time i = q.time i :=
    fun i _ hne => setConnection_time_of_ne hne
  have hself : (q.setConnection index (freshConnection fd now mem)).time index = now :=
    setConnection_time_self
  unfold updateQueueConnection
  rw [hi]
  refine ⟨_, rfl, ?_⟩
  dsimp only
  split
  · -- shift up
    rename_i hlt
    have hle : now ≤ q.time index := by unfold difftime at hlt; omega
    have hup := (heapOrdered_iff.mp h).lower (hself.trans_le hle) hother hin
    refine ⟨shiftUp_ordered hup hin hself, ?_,
      (shiftUp (q.setConnection index (freshConnection fd now mem)) now index).2, ?_,
      Function.update_self _ _ _, ?_⟩
    · have hrec := shiftUp_records (q := q.setConnection index (freshConnection fd now mem)) now hin
      show _ ::ₘ (shiftUp _ _ _).1.records = _
      rw [hrec]
      exact setConnection_records hin
    · show _ < (shiftUp _ _ _).1.currentSize
      rw [(shiftUp_frame _ _ _).2.1]
      exact (shiftUp_le _ _ _).trans_lt hin
    · show (shiftUp _ _ _).1.connections _ = _
      rw [shiftUp_slot]
      exact Function.update_self _ _ _
  · -- shift down
    rename_i hge
    have hle : q.time index ≤ now := by unfold difftime at hge; omega
    have he' : (q.setConnection index (freshConnection fd now mem)).IndexExact :=
      setConnection_indexExact he hfd.symm
    have hr := heapify_rearranges (q.setConnection index (freshConnection fd now mem)) index
    have hdown := (heapOrdered_iff.mp h).raise (fun _ hi => hi) (fun d hd _ => hd.1)
      (hle.trans_eq hself.symm) hother hin
    refine ⟨heapify_heapOrdered hdown, ?_, ?_⟩
    · rw [heapify_records]
      exact setConnection_records hin
    · have hfound := congrFun (hr.getConnectionByFd_eq he') fd
      rw [setConnection_map he hi, Function.update_self] at hfound
      obtain ⟨j, hj, hjc⟩ := Option.map_eq_some_iff.mp hfound
      exact ⟨j, ((hr.exact he').name_pos fd j hj).1, hj, hjc⟩

end AnyClock

/-- **Sift-up with any clock.** Whatever the clock shows, enqueueing a new descriptor and refreshing
a present one leave the heap ordered, with exactly the old records and the new one, respectively with
the fresh record in place of the old one of that descriptor; and the index array gives the slot in
which the operated record ends up. -/
theorem siftUp_any_clock (q : QueueConnectionsType) (hq : Consistent q) :
    (∀ connection : QueueConnectionElementType, ClientFd connection.clientFd →
      ¬ existsConnection q connection.clientFd →
      HeapOrdered (enqueueConnection q connection) ∧
        (enqueueConnection q connection).records = connection ::ₘ q.records ∧
        StoredAt (enqueueConnection q connection) connection) ∧
    ∀ fd now mem old, getConnectionByFd q fd = some old →
      ∃ q', updateQueueConnection q fd now mem = some q' ∧ HeapOrdered q' ∧
        old ::ₘ q'.records = freshConnection fd now mem ::ₘ q.records ∧
        StoredAt q' (freshConnection fd now mem) := by
  constructor
  · intro connection _ _
    exact enqueueConnection_siftUp hq.ordered (hq.sized.not_full hq.exact).ne
  · intro fd now mem old hold
    obtain ⟨index, hi, rfl⟩ := Option.map_eq_some_iff.mp hold
    exact updateQueueConnection_sift now mem hq.exact hq.ordered hi

/-- The clock has gone back before both clients: another one comes, and the later one is
refreshed. -/
theorem siftUp_any_clock_twoClients :
    (HeapOrdered (enqueueConnection twoClients (freshConnection 7 (-5) .zeroed)) ∧
      (enqueueConnection twoClients (freshConnection 7 (-5) .zeroed)).records =
        freshConnection 7 (-5) .zeroed ::ₘ twoClients.records ∧
      StoredAt (enqueueConnection twoClients (freshConnection 7 (-5) .zeroed))
        (freshConnection 7 (-5) .zeroed)) ∧
    ∃ q', updateQueueConnection twoClients 6 (-3) .zeroed = some q' ∧ HeapOrdered q' ∧
      twoClients.connections 1 ::ₘ q'.records =
        freshConnection 6 (-3) .zeroed ::ₘ twoClients.records ∧
      StoredAt q' (freshConnection 6 (-3) .zeroed) := by
  have hstored : twoClients.indexQueue 6 = some 1 := by decide +kernel
  refine ⟨(siftUp_any_clock twoClients consistent_twoClients).1 _ (by decide) (by decide +kernel),
    (siftUp_any_clock twoClients consistent_twoClients).2 6 (-3) .zeroed _ ?_⟩
  rw [getConnectionByFd, hstored, Option.map_some]

/-! ### Draining the queue -/

theorem dequeueConnection_currentSize (q : QueueConnectionsType) :
    (dequeueConnection q).currentSize = q.currentSize - 1 := by
  unfold dequeueConnection
  split
  · omega
  · dsimp only
    split
    · rfl
    · exact (heapify_rearranges _ 0).size

theorem peekQueueConnections_eq_some {q : QueueConnectionsType} {c : QueueConnectionElementType} :
    peekQueueConnections q = some c ↔ 0 < q.currentSize ∧ q.connections 0 = c := by
  unfold peekQueueConnections
  split
  · simp_all
  · simp only [Option.some.injEq, and_iff_right (Nat.pos_of_ne_zero ‹_›)]

theorem peekQueueConnections_eq_none {q : QueueConnectionsType} :
    peekQueueConnections q = none ↔ q.currentSize = 0 := by
  unfold peekQueueConnections
  split <;> simp_all

/-- Peek at the first record and dequeue it, until the queue is empty: the record of every turn, with
the queue it leaves. -/
def drain (q : QueueConnectionsType) : List (QueueConnectionElementType × QueueConnectionsType) :=
  match _ : peekQueueConnections q with
  | none => []
  | some first => (first, dequeueConnection q) :: drain (dequeueConnection q)
termination_by q.currentSize
decreasing_by
  have hpos := (peekQueueConnections_eq_some.mp ‹_›).1
  rw [dequeueConnection_currentSize]
  omega

/-- The queue that the last turn leaves. -/
def drained (q : QueueConnectionsType) : QueueConnectionsType :=
  ((drain q).getLast?.map Prod.snd).getD q

section Drain

variable {q : QueueConnectionsType}

theorem drain_of_empty (h : q.currentSize = 0) : drain q = [] := by
  rw [drain]
  split
  · rfl
  · rename_i hpeek
    have := (peekQueueConnections_eq_some.mp hpeek).1
    omega

theorem drain_of_pos (h : 0 < q.currentSize) :
    drain q = (q.connections 0, dequeueConnection q) :: drain (dequeueConnection q) := by
  rw [drain]
  split
  · rename_i hpeek
    have := peekQueueConnections_eq_none.mp hpeek
    omega
  · rename_i first hpeek
    rw [(peekQueueConnections_eq_some.mp hpeek).2]

theorem drained_of_pos (h : 0 < q.currentSize) : drained q = drained (dequeueConnection q) := by
  unfold drained
  rw [drain_of_pos h]
  cases hd : drain (dequeueConnection q) with
  | nil => rfl
  | cons turn turns => simp [List.getLast?_eq_some_getLast]

theorem Consistent.dequeue (hq : Consistent q) (hpos : 0 < q.currentSize) :
    Consistent (dequeueConnection q) ∧
      getConnectionByFd (dequeueConnection q) =
        Function.update (getConnectionByFd q) (q.fd 0) none := by
  rw [dequeueConnection_eq hq.exact hpos.ne']
  exact ⟨hq.dequeue_root hpos, (dequeueConnectionByFd_spec hq.exact hq.sized (q.fd 0)).2.2⟩

theorem drain_consistent (hq : Consistent q) :
    (∀ turn ∈ drain q, Consistent turn.2) ∧ (drain q).length = q.currentSize ∧
      Consistent (drained q) ∧ (drained q).currentSize = 0 := by
  induction hn : q.currentSize generalizing q with
  | zero =>
    have hend : drained q = q := by unfold drained; rw [drain_of_empty hn]; rfl
    rw [hend, drain_of_empty hn]
    exact ⟨fun _ h => absurd h List.not_mem_nil, rfl, hq, hn⟩
  | succ n ih =>
    have hpos : 0 < q.currentSize := by omega
    obtain ⟨hq', -⟩ := hq.dequeue hpos
    obtain ⟨hturns, hlen, hend⟩ := ih hq' (by rw [dequeueConnection_currentSize]; omega)
    rw [drain_of_pos hpos, drained_of_pos hpos]
    refine ⟨?_, by rw [List.length_cons, hlen], hend⟩
    intro turn hturn
    rcases List.mem_cons.mp hturn with rfl | hturn
    · exact hq'
    · exact hturns turn hturn

theorem mem_drain (hq : Consistent q) (c : QueueConnectionElementType) :
    c ∈ (drain q).map Prod.fst ↔ getConnectionByFd q c.clientFd = some c := by
  induction hn : q.currentSize generalizing q with
  | zero =>
    rw [drain_of_empty hn, getConnectionByFd_eq_some hq.exact]
    refine iff_of_false List.not_mem_nil ?_
    rintro ⟨i, hi, -⟩
    omega
  | succ n ih =>
    have hpos : 0 < q.currentSize := by omega
    obtain ⟨hq', hmap⟩ := hq.dequeue hpos
    have hroot := getConnectionByFd_fd hq.exact hpos
    rw [drain_of_pos hpos, List.map_cons, List.mem_cons,
      ih hq' (by rw [dequeueConnection_currentSize]; omega), hmap]
    by_cases hfd : c.clientFd = q.fd 0
    · rw [hfd, Function.update_self, hroot, Option.some.injEq, or_iff_left (by simp)]
      exact eq_comm
    · rw [Function.update_of_ne hfd]
      refine or_iff_right fun hc => hfd ?_
      rw [hc]
      rfl

theorem drain_nodup (hq : Consistent q) :
    ((drain q).map fun turn => turn.1.clientFd).Nodup := by
  induction hn : q.currentSize generalizing q with
  | zero => rw [drain_of_empty hn]; exact List.nodup_nil
  | succ n ih =>
    have hpos : 0 < q.currentSize := by omega
    obtain ⟨hq', hmap⟩ := hq.dequeue hpos
    rw [drain_of_pos hpos, List.map_cons, List.nodup_cons]
    refine ⟨fun hmem => ?_, ih hq' (by rw [dequeueConnection_currentSize]; omega)⟩
    -- a later record of the root's descriptor would still be in the queue
    obtain ⟨turn, hturn, hfd⟩ := List.mem_map.mp hmem
    have hstored := (mem_drain hq' turn.1).mp (List.mem_map_of_mem hturn)
    have hfd : turn.1.clientFd = q.fd 0 := hfd
    rw [hmap, hfd, Function.update_self] at hstored
    cases hstored

theorem drain_pairwise (hq : Consistent q) :
    ((drain q).map fun turn => turn.1.priorityTime).Pairwise (· ≤ ·) := by
  induction hn : q.currentSize generalizing q with
  | zero => rw [drain_of_empty hn]; exact List.Pairwise.nil
  | succ n ih =>
    have hpos : 0 < q.currentSize := by omega
    obtain ⟨hq', hmap⟩ := hq.dequeue hpos
    rw [drain_of_pos hpos, List.map_cons, List.pairwise_cons]
    refine ⟨fun t ht => ?_, ih hq' (by rw [dequeueConnection_currentSize]; omega)⟩
    -- what comes later is in the queue now, where nothing is before the root
    obtain ⟨turn, hturn, rfl⟩ := List.mem_map.mp ht
    have hstored : turn.1 ∈ (drain q).map Prod.fst := by
      rw [drain_of_pos hpos]
      exact List.mem_cons_of_mem _ (List.mem_map_of_mem hturn)
    obtain ⟨i, hi, hci, -⟩ := (getConnectionByFd_eq_some hq.exact).mp ((mem_drain hq _).mp hstored)
    rw [← hci]
    exact (heapOrdered_iff.mp hq.ordered).root_le i hi

/-- **Priority-queue order.** Peeking and dequeueing until the queue is empty ends. It yields every
stored record once, in the order of the times, passes through consistent queues only, and ends with
an index array without entries. -/
theorem drain_sorted (q : QueueConnectionsType) (hq : Consistent q) :
    (drain q).length = q.currentSize ∧
    ((drain q).map fun turn => turn.1.clientFd).Nodup ∧
    (∀ c, c ∈ (drain q).map Prod.fst ↔ ∃ i < q.currentSize, q.connections i = c) ∧
    ((drain q).map fun turn => turn.1.priorityTime).Pairwise (· ≤ ·) ∧
    (∀ turn ∈ drain q, Consistent turn.2) ∧
    peekQueueConnections (drained q) = none ∧
    ∀ fd, (drained q).indexQueue fd = none := by
  obtain ⟨hturns, hlen, hend, hempty⟩ := drain_consistent hq
  refine ⟨hlen, drain_nodup hq, fun c => ?_, drain_pairwise hq, hturns,
    peekQueueConnections_eq_none.mpr hempty, fun fd => ?_⟩
  · rw [mem_drain hq, getConnectionByFd_eq_some hq.exact]
    simp only [and_true]
  · cases hi : (drained q).indexQueue fd with
    | none => rfl
    | some i =>
      have := (hend.exact.name_pos fd i hi).1
      omega

/-- Two clients, the older one first. -/
theorem drain_sorted_twoClients :
    (drain twoClients).length = twoClients.currentSize ∧
    ((drain twoClients).map fun turn => turn.1.clientFd).Nodup ∧
    (∀ c, c ∈ (drain twoClients).map Prod.fst ↔
      ∃ i < twoClients.currentSize, twoClients.connections i = c) ∧
    ((drain twoClients).map fun turn => turn.1.priorityTime).Pairwise (· ≤ ·) ∧
    (∀ turn ∈ drain twoClients, Consistent turn.2) ∧
    peekQueueConnections (drained twoClients) = none ∧
    ∀ fd, (drained twoClients).indexQueue fd = none :=
  drain_sorted twoClients consistent_twoClients

end Drain

end UbServer

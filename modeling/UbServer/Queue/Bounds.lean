import UbServer.Queue.Index

/-!
# The subscripts of the queue functions

Every access that the functions of the queue make to `indexQueue` and `connections`, whatever the
clock returns and whether or not the index array is exact.

* `Access`: an access with the subscript the code computes; `enqueueAccesses` and so on give those
  of a call, in order.
* `Bounded`: all descriptors and index entries are below the size of the arrays, and there is an
  entry for every record, so that a descriptor without an entry finds a free slot.
* Every function keeps `Bounded`, and all its accesses are inside the arrays.
-/

namespace UbServer

open MinHeap QueueConnectionsType

/-- An access to one of the arrays of a queue. -/
inductive Access where
  | indexQueue (i : ℤ)
  | connections (i : ℤ)
  deriving DecidableEq

/-- Both arrays have `MAX_EPOLL_EVENTS` elements. -/
def Access.InBounds : Access → Prop
  | .indexQueue i => 0 ≤ i ∧ i < maxEpollEvents
  | .connections i => 0 ≤ i ∧ i < maxEpollEvents

instance : DecidablePred Access.InBounds := fun access => by
  cases access <;> exact inferInstanceAs (Decidable (_ ∧ _))

/-! ### The accesses -/

section Accesses

variable (q : QueueConnectionsType) (fd : ℕ) (now : ℤ) (mem : RequestBlock)

/-- The loop that `enqueueConnection` and `updateQueueConnection` contain. -/
def shiftUpAccesses (q : QueueConnectionsType) (time : ℤ) (index : ℕ) : List Access :=
  if _h : index = 0 then []
  else
    .connections (parentHeap index) ::
      if difftime time (q.time (parentHeap index)) < 0 then
        [Access.connections index, .connections (parentHeap index)] ++
          shiftUpAccesses (q.swapConnectionElementHeap index (parentHeap index)) time
            (parentHeap index)
      else []
termination_by index
decreasing_by exact parentHeap_lt _h

def heapifyAccesses (q : QueueConnectionsType) (index : ℕ) : List Access :=
  let left := leftChildHeap index
  let right := rightChildHeap index
  let afterLeft := if left < q.currentSize ∧ difftime (q.time left) (q.time index) < 0
    then left else index
  let smallest := q.smallest index
  (if left < q.currentSize then [Access.connections left, .connections index] else []) ++
  (if right < q.currentSize then [Access.connections right, .connections afterLeft] else []) ++
  if smallest ≠ index then
    let q₁ := q.swapConnectionElementHeap index smallest
    [Access.connections index, .connections smallest,
      .connections index, .indexQueue (q₁.fd index),
      .connections smallest, .indexQueue (q₁.fd smallest)] ++
      heapifyAccesses (q.swapRepaired index smallest) smallest
  else []
termination_by q.currentSize - index
decreasing_by
  have := q.smallest_bounds ‹_›
  simp only [QueueConnectionsType.swapRepaired, QueueConnectionsType.setIndex,
    QueueConnectionsType.swapConnectionElementHeap]
  omega

def enqueueAccesses (connection : QueueConnectionElementType) : List Access :=
  if q.currentSize = q.capacity then []
  else
    .connections q.currentSize ::
      shiftUpAccesses (appended q connection) connection.priorityTime q.currentSize ++
      [Access.indexQueue connection.clientFd]

def existsAccesses : List Access := [.indexQueue fd]

/-- What follows an access outside the arrays is undefined. -/
def getOrCreateAccesses : List Access :=
  .indexQueue fd ::
    if InIndexQueue fd then
      match q.indexQueue fd with
      | some index => [.connections index]
      | none =>
        let connection := freshConnection fd now mem
        enqueueAccesses q connection ++ .indexQueue fd ::
          match (enqueueConnection q connection).indexQueue fd with
          | some index => [.connections index]
          | none => []
    else []

def updateAccesses : List Access :=
  .indexQueue fd ::
    match q.indexQueue fd with
    | none => [.connections (-1)]
    | some index =>
      let q₁ := q.setConnection index (freshConnection fd now mem)
      .connections index ::
        if difftime now (q.time index) < 0 then shiftUpAccesses q₁ now index ++ [.indexQueue fd]
        else heapifyAccesses q₁ index

def dequeueByFdAccesses : List Access :=
  if q.currentSize = 0 then []
  else
    .indexQueue fd ::
      match q.indexQueue fd with
      | none => []
      | some index =>
        let last : ℤ := q.currentSize - 1
        let fdLast := q.fd (q.currentSize - 1)
        if fdLast = fd then
          [.connections index, .connections last, .indexQueue fdLast, .connections last,
            .indexQueue fd]
        else
          let q₁ := q.swapConnectionElementHeap index (q.currentSize - 1)
          let q₂ := q₁.setConnection (q.currentSize - 1) emptyConnection
          let q₃ := { q₂ with currentSize := q₂.currentSize - 1 }
          [.connections index, .connections last, .connections index, .connections last,
            .connections last, .indexQueue fd, .indexQueue fdLast] ++
            heapifyAccesses ((q₃.setIndex fd none).setIndex fdLast (some index)) index

/-- `peekQueueConnections`, with the reads through the pointer it returns. -/
def peekAccesses : List Access := if q.currentSize = 0 then [] else [.connections 0]

end Accesses

/-! ### The invariant -/

/-- The descriptors that have an entry. -/
def QueueConnectionsType.entries (q : QueueConnectionsType) : Finset ℕ :=
  {fd ∈ Finset.range maxEpollEvents | (q.indexQueue fd).isSome}

/-- All descriptors and index entries are below the size of the arrays. -/
structure InRange (q : QueueConnectionsType) : Prop where
  capacity : q.capacity = maxEpollEvents
  fd : ∀ i, InIndexQueue (q.fd i)
  index : ∀ fd index, q.indexQueue fd = some index → index < maxEpollEvents

/-- And there are at least as many entries as records. -/
structure Bounded (q : QueueConnectionsType) : Prop extends InRange q where
  size : q.currentSize ≤ q.entries.card

section Invariant

variable {q : QueueConnectionsType} {connection : QueueConnectionElementType} {fd index i j : ℕ}

theorem inBounds_indexQueue : (Access.indexQueue (i : ℤ)).InBounds ↔ i < maxEpollEvents := by
  unfold Access.InBounds
  omega

theorem inBounds_connections : (Access.connections (i : ℤ)).InBounds ↔ i < maxEpollEvents := by
  unfold Access.InBounds
  omega

theorem mem_entries : fd ∈ q.entries ↔ fd < maxEpollEvents ∧ (q.indexQueue fd).isSome := by
  unfold entries
  rw [Finset.mem_filter, Finset.mem_range]

theorem entries_congr {q' : QueueConnectionsType} (h : q'.indexQueue = q.indexQueue) :
    q'.entries = q.entries := by
  unfold entries
  rw [h]

theorem entries_card_le (q : QueueConnectionsType) : q.entries.card ≤ maxEpollEvents := by
  unfold entries
  exact (Finset.card_filter_le _ _).trans (Finset.card_range _).le

theorem entries_card_lt (hfd : InIndexQueue fd) (hnone : q.indexQueue fd = none) :
    q.entries.card < maxEpollEvents := by
  have hsub : q.entries ⊆ (Finset.range maxEpollEvents).erase fd := by
    intro k hk
    obtain ⟨hlt, hsome⟩ := mem_entries.mp hk
    refine Finset.mem_erase.mpr ⟨?_, Finset.mem_range.mpr hlt⟩
    rintro rfl
    rw [hnone] at hsome
    cases hsome
  have hcard := Finset.card_le_card hsub
  rw [Finset.card_erase_of_mem (Finset.mem_range.mpr hfd), Finset.card_range] at hcard
  have hpos : 0 < maxEpollEvents := by decide
  omega

theorem entries_setIndex_some : q.entries ⊆ (q.setIndex fd (some index)).entries := by
  intro k hk
  obtain ⟨hlt, hsome⟩ := mem_entries.mp hk
  refine mem_entries.mpr ⟨hlt, ?_⟩
  by_cases hkfd : k = fd
  · subst hkfd
    simp [setIndex]
  · simpa [setIndex, Function.update_of_ne hkfd] using hsome

theorem entries_card_setIndex_new (hfd : InIndexQueue fd) (hnone : q.indexQueue fd = none) :
    q.entries.card + 1 ≤ (q.setIndex fd (some index)).entries.card := by
  have hnot : fd ∉ q.entries := fun hmem => by
    rw [mem_entries, hnone] at hmem
    cases hmem.2
  have hsub : insert fd q.entries ⊆ (q.setIndex fd (some index)).entries := by
    refine Finset.insert_subset (mem_entries.mpr ⟨hfd, ?_⟩) entries_setIndex_some
    simp [setIndex]
  rw [← Finset.card_insert_of_notMem hnot]
  exact Finset.card_le_card hsub

theorem entries_card_setIndex_none : q.entries.card ≤ (q.setIndex fd none).entries.card + 1 := by
  have hsub : q.entries.erase fd ⊆ (q.setIndex fd none).entries := by
    intro k hk
    obtain ⟨hne, hk⟩ := Finset.mem_erase.mp hk
    obtain ⟨hlt, hsome⟩ := mem_entries.mp hk
    refine mem_entries.mpr ⟨hlt, ?_⟩
    simpa [setIndex, Function.update_of_ne hne] using hsome
  have hcard := Finset.card_le_card hsub
  have herase := Finset.pred_card_le_card_erase (s := q.entries) (a := fd)
  omega

namespace InRange

theorem setConnection (h : InRange q) (hfd : InIndexQueue connection.clientFd) :
    InRange (q.setConnection i connection) := by
  refine ⟨h.capacity, fun k => ?_, h.index⟩
  unfold QueueConnectionsType.fd QueueConnectionsType.setConnection
  by_cases hk : k = i
  · subst hk
    simpa using hfd
  · have hsame : Function.update q.connections i connection k = q.connections k :=
      Function.update_of_ne hk ..
    simp only [hsame]
    exact h.fd k

theorem setIndex {entry : Option ℕ} (h : InRange q)
    (hentry : ∀ index, entry = some index → index < maxEpollEvents) :
    InRange (q.setIndex fd entry) := by
  refine ⟨h.capacity, h.fd, fun k index hindex => ?_⟩
  unfold QueueConnectionsType.setIndex at hindex
  by_cases hk : k = fd
  · subst hk
    exact hentry index (by simpa using hindex)
  · exact h.index k index (by simpa [Function.update_of_ne hk] using hindex)

theorem setIndex_some (h : InRange q) (hindex : index < maxEpollEvents) :
    InRange (q.setIndex fd (some index)) :=
  h.setIndex fun _ hk => Option.some.inj hk ▸ hindex

theorem setIndex_none (h : InRange q) : InRange (q.setIndex fd none) :=
  h.setIndex fun _ hk => nomatch hk

theorem swap (h : InRange q) (i j : ℕ) : InRange (q.swapConnectionElementHeap i j) := by
  refine ⟨h.capacity, fun k => ?_, h.index⟩
  have hfd : (q.swapConnectionElementHeap i j).fd = swapAt q.fd i j :=
    comp_swapAt QueueConnectionElementType.clientFd q.connections i j
  rw [hfd, swapAt_eq_comp]
  exact h.fd _

theorem resize (h : InRange q) (n : ℕ) : InRange { q with currentSize := n } :=
  ⟨h.capacity, h.fd, h.index⟩

theorem swapRepaired (h : InRange q) (hi : i < maxEpollEvents) (hj : j < maxEpollEvents) :
    InRange (q.swapRepaired i j) :=
  ((h.swap i j).setIndex_some hi).setIndex_some hj

end InRange

theorem Bounded.size_le (h : Bounded q) : q.currentSize ≤ maxEpollEvents :=
  h.size.trans (entries_card_le q)

theorem bounded_createQueueConnections : Bounded createQueueConnections :=
  ⟨⟨rfl, fun _ => (by decide : 0 < maxEpollEvents), fun _ _ h => nomatch h⟩, Nat.zero_le _⟩

end Invariant

/-! ### The two loops -/

section Loops

variable {q : QueueConnectionsType} {index : ℕ}

theorem shiftUp_inRange (h : InRange q) (time : ℤ) (index : ℕ) :
    InRange (shiftUp q time index).1 := by
  induction q, index using shiftUp.induct time with
  | case1 q index hturns ih =>
    rw [shiftUp_of_turns hturns]
    exact ih (h.swap _ _)
  | case2 q index hturns =>
    rw [shiftUp_of_not_turns hturns]
    exact h

theorem shiftUp_setIndex (h : InRange q) (time : ℤ) (hindex : index < maxEpollEvents) (fd : ℕ) :
    let shifted := shiftUp q time index
    InRange (shifted.1.setIndex fd (some shifted.2)) ∧ shifted.2 < maxEpollEvents ∧
      shifted.1.currentSize = q.currentSize ∧
      (shifted.1.setIndex fd (some shifted.2)).entries =
        (q.setIndex fd (some shifted.2)).entries := by
  obtain ⟨hindexQueue, hsize, -, -⟩ := shiftUp_frame q time index
  have hlt := (shiftUp_le q time index).trans_lt hindex
  refine ⟨(shiftUp_inRange h time index).setIndex_some hlt, hlt, hsize, entries_congr ?_⟩
  unfold QueueConnectionsType.setIndex
  rw [hindexQueue]

theorem shiftUpAccesses_inBounds (time : ℤ) (hindex : index < maxEpollEvents) :
    ∀ access ∈ shiftUpAccesses q time index, access.InBounds := by
  induction q, index using shiftUpAccesses.induct with
  | case1 q => simp [shiftUpAccesses]
  | case2 q index hzero ih =>
    have hparent := (parentHeap_lt hzero).trans hindex
    rw [shiftUpAccesses, dif_neg hzero]
    intro access haccess
    split at haccess
    · simp only [List.cons_append, List.nil_append, List.mem_cons] at haccess
      rcases haccess with rfl | rfl | rfl | haccess
      · exact inBounds_connections.mpr hparent
      · exact inBounds_connections.mpr hindex
      · exact inBounds_connections.mpr hparent
      · exact ih hparent access haccess
    · obtain rfl := List.mem_singleton.mp haccess
      exact inBounds_connections.mpr hparent

theorem heapify_inRange (h : InRange q) (hsize : q.currentSize ≤ maxEpollEvents)
    (hindex : index < maxEpollEvents) :
    InRange (heapify q index) ∧ q.entries ⊆ (heapify q index).entries := by
  induction q, index using heapify.induct with
  | case1 q index smallest hne ih =>
    have hb := q.smallest_bounds hne
    have hsmallest : q.smallest index < maxEpollEvents := hb.2.trans_le hsize
    obtain ⟨hrange, hsub⟩ := ih (h.swapRepaired hindex hsmallest) hsize hsmallest
    rw [heapify, if_pos hne]
    exact ⟨hrange, (entries_setIndex_some.trans entries_setIndex_some).trans hsub⟩
  | case2 q index smallest hne =>
    rw [heapify, if_neg hne]
    exact ⟨h, subset_rfl⟩

theorem heapifyAccesses_inBounds (h : InRange q) (hsize : q.currentSize ≤ maxEpollEvents)
    (hindex : index < maxEpollEvents) :
    ∀ access ∈ heapifyAccesses q index, access.InBounds := by
  induction q, index using heapifyAccesses.induct with
  | case1 q index smallest ih =>
    rw [heapifyAccesses]
    intro access haccess
    rcases List.mem_append.mp haccess with haccess | haccess
    · rcases List.mem_append.mp haccess with haccess | haccess
      · -- the left child is compared
        split at haccess
        · simp only [List.mem_cons, List.not_mem_nil, or_false] at haccess
          rcases haccess with rfl | rfl
          · exact inBounds_connections.mpr (lt_of_lt_of_le ‹_› hsize)
          · exact inBounds_connections.mpr hindex
        · cases haccess
      · -- the right child is compared with the smaller of the other two
        split at haccess
        · simp only [List.mem_cons, List.not_mem_nil, or_false] at haccess
          rcases haccess with rfl | rfl
          · exact inBounds_connections.mpr (lt_of_lt_of_le ‹_› hsize)
          · refine inBounds_connections.mpr ?_
            split
            · exact lt_of_lt_of_le (And.left ‹_›) hsize
            · exact hindex
        · cases haccess
    · by_cases hne : q.smallest index ≠ index
      · rw [if_pos hne] at haccess
        have hsmallest := (q.smallest_bounds hne).2.trans_le hsize
        have hswap := h.swap index (q.smallest index)
        simp only [List.cons_append, List.nil_append, List.mem_cons] at haccess
        rcases haccess with rfl | rfl | rfl | rfl | rfl | rfl | haccess
        · exact inBounds_connections.mpr hindex
        · exact inBounds_connections.mpr hsmallest
        · exact inBounds_connections.mpr hindex
        · exact inBounds_indexQueue.mpr (hswap.fd _)
        · exact inBounds_connections.mpr hsmallest
        · exact inBounds_indexQueue.mpr (hswap.fd _)
        · exact ih hne (h.swapRepaired hindex hsmallest) hsize hsmallest access haccess
      · rw [if_neg hne] at haccess
        cases haccess

end Loops

/-! ### The functions -/

section Functions

variable {q q' : QueueConnectionsType} {connection : QueueConnectionElementType} {fd index : ℕ}
  {now : ℤ} {mem : RequestBlock}

theorem Bounded.setConnection (h : Bounded q) (hfd : InIndexQueue connection.clientFd) :
    Bounded (q.setConnection index connection) :=
  ⟨h.toInRange.setConnection hfd, h.size⟩

theorem inBounds_existsAccesses (hfd : InIndexQueue fd) :
    ∀ access ∈ existsAccesses fd, access.InBounds := by
  intro access haccess
  obtain rfl := List.mem_singleton.mp haccess
  exact inBounds_indexQueue.mpr hfd

theorem inBounds_peekAccesses : ∀ access ∈ peekAccesses q, access.InBounds := by
  intro access haccess
  unfold peekAccesses at haccess
  split at haccess
  · cases haccess
  · obtain rfl := List.mem_singleton.mp haccess
    decide

theorem enqueueConnection_bounded (h : Bounded q) (hfd : InIndexQueue connection.clientFd)
    (hnone : q.indexQueue connection.clientFd = none) :
    Bounded (enqueueConnection q connection) ∧
      (∃ index, (enqueueConnection q connection).indexQueue connection.clientFd =
        some index ∧ index < maxEpollEvents) ∧
      ∀ access ∈ enqueueAccesses q connection, access.InBounds := by
  have hlt : q.currentSize < maxEpollEvents := h.size.trans_lt (entries_card_lt hfd hnone)
  have hfull : q.currentSize ≠ q.capacity := by
    rw [h.capacity]
    exact hlt.ne
  have happended : InRange (appended q connection) := (h.toInRange.setConnection hfd).resize _
  obtain ⟨hrange, hslot, hsize, hentries⟩ :=
    shiftUp_setIndex happended connection.priorityTime hlt connection.clientFd
  rw [enqueueConnection_eq hfull]
  refine ⟨⟨hrange, ?_⟩, ⟨_, Function.update_self .., hslot⟩, ?_⟩
  · -- one record and one entry more
    have hnone' : (appended q connection).indexQueue connection.clientFd = none := hnone
    rw [hentries]
    exact (hsize.trans_le (Nat.succ_le_succ h.size)).trans (entries_card_setIndex_new hfd hnone')
  · intro access haccess
    unfold enqueueAccesses at haccess
    rw [if_neg hfull] at haccess
    simp only [List.cons_append, List.mem_cons, List.mem_append, List.not_mem_nil, or_false]
      at haccess
    rcases haccess with rfl | haccess | rfl
    · exact inBounds_connections.mpr hlt
    · exact shiftUpAccesses_inBounds _ hlt access haccess
    · exact inBounds_indexQueue.mpr hfd

theorem enqueueConnection_other {other : ℕ} (hother : other ≠ connection.clientFd) :
    (enqueueConnection q connection).indexQueue other = q.indexQueue other := by
  by_cases hfull : q.currentSize = q.capacity
  · unfold enqueueConnection
    rw [if_pos hfull]
  · rw [enqueueConnection_eq hfull]
    obtain ⟨hindexQueue, -⟩ :=
      shiftUp_frame (appended q connection) connection.priorityTime q.currentSize
    exact (Function.update_of_ne hother ..).trans (congrFun hindexQueue other)

theorem getConnectionOrCreateByFd_other {other : ℕ}
    (h : getConnectionOrCreateByFd q fd now mem = some (q', index)) (hother : other ≠ fd) :
    q'.indexQueue other = q.indexQueue other := by
  unfold getConnectionOrCreateByFd at h
  split at h
  · split at h
    · obtain ⟨rfl, -⟩ := Prod.mk.inj (Option.some.inj h)
      rfl
    · obtain ⟨k, -, h⟩ := Option.map_eq_some_iff.mp h
      obtain ⟨rfl, -⟩ := Prod.mk.inj h
      exact enqueueConnection_other hother
  · cases h

theorem getConnectionOrCreateByFd_bounded (h : Bounded q) (hfd : InIndexQueue fd) (now : ℤ)
    (mem : RequestBlock) :
    (∃ q' index, getConnectionOrCreateByFd q fd now mem = some (q', index) ∧ Bounded q' ∧
      q'.indexQueue fd = some index ∧ index < maxEpollEvents) ∧
      ∀ access ∈ getOrCreateAccesses q fd now mem, access.InBounds := by
  unfold getConnectionOrCreateByFd getOrCreateAccesses
  rw [if_pos hfd, if_pos hfd]
  cases hindex : q.indexQueue fd with
  | some index =>
    have hlt := h.index fd index hindex
    refine ⟨⟨q, index, rfl, h, hindex, hlt⟩, fun access haccess => ?_⟩
    simp only [List.mem_cons, List.not_mem_nil, or_false] at haccess
    rcases haccess with rfl | rfl
    · exact inBounds_indexQueue.mpr hfd
    · exact inBounds_connections.mpr hlt
  | none =>
    have hfresh : InIndexQueue (freshConnection fd now mem).clientFd := hfd
    obtain ⟨hbounded, ⟨index, hstored, hlt⟩, haccesses⟩ := enqueueConnection_bounded h hfresh hindex
    have hstored : (enqueueConnection q (freshConnection fd now mem)).indexQueue fd = some index :=
      hstored
    simp only [hstored, Option.map_some]
    refine ⟨⟨_, index, rfl, hbounded, hstored, hlt⟩, fun access haccess => ?_⟩
    simp only [List.mem_cons, List.mem_append, List.not_mem_nil, or_false] at haccess
    rcases haccess with rfl | haccess | rfl | rfl
    · exact inBounds_indexQueue.mpr hfd
    · exact haccesses access haccess
    · exact inBounds_indexQueue.mpr hfd
    · exact inBounds_connections.mpr hlt

theorem updateQueueConnection_bounded (h : Bounded q) (hfd : InIndexQueue fd)
    (hexists : existsConnection q fd) (now : ℤ) (mem : RequestBlock) :
    (∀ q', updateQueueConnection q fd now mem = some q' → Bounded q') ∧
      ∀ access ∈ updateAccesses q fd now mem, access.InBounds := by
  obtain ⟨index, hindex⟩ := Option.isSome_iff_exists.mp hexists
  have hlt := h.index fd index hindex
  have hset : Bounded (q.setConnection index (freshConnection fd now mem)) := h.setConnection hfd
  unfold updateQueueConnection updateAccesses
  rw [hindex, Option.map_some]
  by_cases hback : difftime now (q.time index) < 0
  · obtain ⟨hrange, -, hsize, hentries⟩ := shiftUp_setIndex hset.toInRange now hlt fd
    simp only [if_pos hback]
    refine ⟨fun q' hq' => ?_, fun access haccess => ?_⟩
    · obtain rfl := Option.some.inj hq'
      refine ⟨hrange, ?_⟩
      rw [hentries]
      exact (hsize.trans_le hset.size).trans (Finset.card_le_card entries_setIndex_some)
    · simp only [List.mem_cons, List.mem_append, List.not_mem_nil, or_false] at haccess
      rcases haccess with rfl | rfl | haccess | rfl
      · exact inBounds_indexQueue.mpr hfd
      · exact inBounds_connections.mpr hlt
      · exact shiftUpAccesses_inBounds _ hlt access haccess
      · exact inBounds_indexQueue.mpr hfd
  · obtain ⟨hrange, hsub⟩ := heapify_inRange hset.toInRange hset.size_le hlt
    simp only [if_neg hback]
    refine ⟨fun q' hq' => ?_, fun access haccess => ?_⟩
    · obtain rfl := Option.some.inj hq'
      refine ⟨hrange, ?_⟩
      rw [(heapify_rearranges _ _).size]
      exact hset.size.trans (Finset.card_le_card hsub)
    · simp only [List.mem_cons] at haccess
      rcases haccess with rfl | rfl | haccess
      · exact inBounds_indexQueue.mpr hfd
      · exact inBounds_connections.mpr hlt
      · exact heapifyAccesses_inBounds hset.toInRange hset.size_le hlt access haccess

theorem dequeueConnectionByFd_bounded (h : Bounded q) (hfd : InIndexQueue fd) :
    Bounded (dequeueConnectionByFd q fd) ∧
      ∀ access ∈ dequeueByFdAccesses q fd, access.InBounds := by
  have hsizeLe := h.size_le
  unfold dequeueConnectionByFd dequeueByFdAccesses
  by_cases hzero : q.currentSize = 0
  · rw [if_pos hzero, if_pos hzero]
    exact ⟨h, nofun⟩
  rw [if_neg hzero, if_neg hzero]
  cases hindex : q.indexQueue fd with
  | none =>
    refine ⟨h, fun access haccess => ?_⟩
    obtain rfl := List.mem_singleton.mp haccess
    exact inBounds_indexQueue.mpr hfd
  | some index =>
    have hlt := h.index fd index hindex
    have hlast : (Access.connections ((q.currentSize : ℤ) - 1)).InBounds := by
      unfold Access.InBounds
      omega
    have hempty : InIndexQueue emptyConnection.clientFd := (by decide : 0 < maxEpollEvents)
    have hsize := h.size
    have hcard : q.entries.card ≤ (q.setIndex fd none).entries.card + 1 :=
      entries_card_setIndex_none
    simp only
    by_cases hsame : q.fd (q.currentSize - 1) = fd
    · rw [if_pos hsame, if_pos hsame]
      refine ⟨⟨((h.toInRange.setConnection hempty).resize _).setIndex_none, ?_⟩,
        fun access haccess => ?_⟩
      · -- one record and one entry fewer
        show q.currentSize - 1 ≤ (q.setIndex fd none).entries.card
        omega
      · simp only [List.mem_cons, List.not_mem_nil, or_false] at haccess
        rcases haccess with rfl | rfl | rfl | rfl | rfl | rfl
        · exact inBounds_indexQueue.mpr hfd
        · exact inBounds_connections.mpr hlt
        · exact hlast
        · exact inBounds_indexQueue.mpr (h.fd _)
        · exact hlast
        · exact inBounds_indexQueue.mpr hfd
    · rw [if_neg hsame, if_neg hsame]
      let q₂ := (q.swapConnectionElementHeap index (q.currentSize - 1)).setConnection
        (q.currentSize - 1) emptyConnection
      let q₃ : QueueConnectionsType := { q₂ with currentSize := q.currentSize - 1 }
      have hrange :
          InRange ((q₃.setIndex fd none).setIndex (q.fd (q.currentSize - 1)) (some index)) :=
        ((((h.toInRange.swap _ _).setConnection hempty).resize _).setIndex_none).setIndex_some hlt
      have hsizeLe' : q.currentSize - 1 ≤ maxEpollEvents := by omega
      obtain ⟨hheap, hsub⟩ := heapify_inRange hrange hsizeLe' hlt
      refine ⟨⟨hheap, ?_⟩, fun access haccess => ?_⟩
      · -- one record fewer, and at most one entry fewer
        have hle : (q.setIndex fd none).entries ⊆
            ((q.setIndex fd none).setIndex (q.fd (q.currentSize - 1)) (some index)).entries :=
          entries_setIndex_some
        have hcards := Finset.card_le_card (hle.trans hsub)
        rw [(heapify_rearranges _ _).size]
        show q.currentSize - 1 ≤ (heapify ((q₃.setIndex fd none).setIndex
          (q.fd (q.currentSize - 1)) (some index)) index).entries.card
        omega
      · simp only [List.cons_append, List.nil_append, List.mem_cons] at haccess
        rcases haccess with rfl | rfl | rfl | rfl | rfl | rfl | rfl | rfl | haccess
        · exact inBounds_indexQueue.mpr hfd
        · exact inBounds_connections.mpr hlt
        · exact hlast
        · exact inBounds_connections.mpr hlt
        · exact hlast
        · exact hlast
        · exact inBounds_indexQueue.mpr hfd
        · exact inBounds_indexQueue.mpr (h.fd _)
        · exact heapifyAccesses_inBounds hrange hsizeLe' hlt access haccess

end Functions

end UbServer

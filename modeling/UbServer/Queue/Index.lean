import UbServer.Queue
import UbServer.Lib.Runs
import Mathlib.Order.Interval.Finset.Nat

/-!
# The index array follows the heap

`IndexExact`: the array `indexQueue` gives the slot of every stored descriptor and of nothing else.
A sift down keeps it, because `heapify` repairs the entries of the two records it exchanges
(`heapify_rearranges`). A sift up does not: neither `enqueueConnection` nor `updateQueueConnection`
repairs the entry of a record it moves down, so they keep it exactly when the loop does not turn
(`enqueueConnection_indexExact_iff`, `updateQueueConnection_indexExact_iff`).

Under exactness each operation is an update of the finite map `getConnectionByFd`.
-/

namespace UbServer

open MinHeap

namespace QueueConnectionsType

variable (q : QueueConnectionsType)

/-- The index array is exact. -/
def IndexExact : Prop := Tracks q.fd q.indexQueue q.currentSize

/-- `indexQueue[connections[i].clientFd] = i` for every used slot, and an entry other than -1 is a
used slot that holds the record of its descriptor. -/
theorem indexExact_iff : q.IndexExact ↔
    (∀ i < q.currentSize, q.indexQueue (q.connections i).clientFd = some i) ∧
    ∀ fd index, q.indexQueue fd = some index →
      index < q.currentSize ∧ (q.connections index).clientFd = fd :=
  ⟨fun h => ⟨h.pos_name, h.name_pos⟩, fun h => ⟨h.1, h.2⟩⟩

/-- The queue `q'` holds the records of `q` in other slots, with the index entries moved along. -/
structure Rearranges (q q' : QueueConnectionsType) : Prop where
  size : q'.currentSize = q.currentSize
  capacity : q'.capacity = q.capacity
  fwd : ∀ i < q.currentSize, ∃ j < q.currentSize, q'.connections j = q.connections i
  bwd : ∀ i < q.currentSize, ∃ j < q.currentSize, q.connections j = q'.connections i
  exact : q.IndexExact → q'.IndexExact

variable {q} {q' q'' : QueueConnectionsType}

theorem Rearranges.refl (q : QueueConnectionsType) : q.Rearranges q :=
  ⟨rfl, rfl, fun i hi => ⟨i, hi, rfl⟩, fun i hi => ⟨i, hi, rfl⟩, id⟩

theorem Rearranges.trans (h : q.Rearranges q') (h' : q'.Rearranges q'') : q.Rearranges q'' where
  size := h'.size.trans h.size
  capacity := h'.capacity.trans h.capacity
  fwd i hi := by
    obtain ⟨j, hj, ej⟩ := h.fwd i hi
    obtain ⟨k, hk, ek⟩ := h'.fwd j (by rwa [h.size])
    exact ⟨k, by rwa [h.size] at hk, ek.trans ej⟩
  bwd i hi := by
    obtain ⟨j, hj, ej⟩ := h'.bwd i (by rwa [h.size])
    obtain ⟨k, hk, ek⟩ := h.bwd j (by rwa [h.size] at hj)
    exact ⟨k, hk, ek.trans ej⟩
  exact := h'.exact ∘ h.exact

theorem Rearranges.getConnectionByFd_eq (h : q.Rearranges q') (he : q.IndexExact) :
    getConnectionByFd q' = getConnectionByFd q := by
  have he' : Tracks (fun i => (q'.connections i).clientFd) q'.indexQueue q.currentSize :=
    h.size ▸ h.exact he
  exact find_congr QueueConnectionElementType.clientFd he he' h.fwd h.bwd

theorem swapRepaired_rearranges {i j : ℕ} (hi : i < q.currentSize) (hj : j < q.currentSize) :
    q.Rearranges (q.swapRepaired i j) := by
  have hcases : ∀ k < q.currentSize, ∃ l < q.currentSize,
      Equiv.swap i j k = l ∧ Equiv.swap i j l = k := fun k hk => by
    refine ⟨Equiv.swap i j k, ?_, rfl, by simp⟩
    by_cases hki : k = i
    · subst hki; simpa using hj
    · by_cases hkj : k = j
      · subst hkj; simpa using hi
      · rwa [Equiv.swap_apply_of_ne_of_ne hki hkj]
  have hconn : (q.swapRepaired i j).connections = q.connections ∘ Equiv.swap i j :=
    swapAt_eq_comp _ _ _
  refine ⟨rfl, rfl, fun k hk => ?_, fun k hk => ?_, fun h => ?_⟩
  · obtain ⟨l, hl, -, e⟩ := hcases k hk
    exact ⟨l, hl, by rw [hconn, Function.comp, e]⟩
  · obtain ⟨l, hl, e, -⟩ := hcases k hk
    exact ⟨l, hl, by rw [hconn, Function.comp, e]⟩
  · have hsw := Tracks.swap h hi hj
    unfold IndexExact
    have hfd : (q.swapRepaired i j).fd = swapAt q.fd i j :=
      comp_swapAt QueueConnectionElementType.clientFd q.connections i j
    rw [hfd]
    simpa [swapRepaired, setIndex, swapConnectionElementHeap, fd] using hsw

theorem heapify_rearranges (q : QueueConnectionsType) (index : ℕ) :
    q.Rearranges (heapify q index) := by
  induction q, index using heapify.induct with
  | case1 q index smallest hne ih =>
    rw [heapify, if_pos hne]
    have hb := q.smallest_bounds hne
    exact (swapRepaired_rearranges (hb.1.trans hb.2) hb.2).trans ih
  | case2 q index smallest hne =>
    rw [heapify, if_neg hne]
    exact Rearranges.refl q

end QueueConnectionsType

open QueueConnectionsType

/-! ### The loop of the shift up -/

section ShiftUp

variable {q : QueueConnectionsType} {time : ℤ} {index : ℕ}

theorem shiftUp_of_not_turns (h : ¬ ShiftUpTurns q time index) :
    shiftUp q time index = (q, index) := by
  rw [shiftUp, if_neg h]

theorem shiftUp_of_turns (h : ShiftUpTurns q time index) :
    shiftUp q time index =
      shiftUp (q.swapConnectionElementHeap index (parentHeap index)) time (parentHeap index) := by
  rw [shiftUp, if_pos h]

/-- The loop touches neither the index array nor the sizes, and no slot past its start. -/
theorem shiftUp_frame (q : QueueConnectionsType) (time : ℤ) (index : ℕ) :
    (shiftUp q time index).1.indexQueue = q.indexQueue ∧
    (shiftUp q time index).1.currentSize = q.currentSize ∧
    (shiftUp q time index).1.capacity = q.capacity ∧
    ∀ k, index < k → (shiftUp q time index).1.connections k = q.connections k := by
  induction q, index using shiftUp.induct time with
  | case1 q index h ih =>
    rw [shiftUp_of_turns h]
    obtain ⟨h1, h2, h3, h4⟩ := ih
    refine ⟨h1, h2, h3, fun k hk => ?_⟩
    have hp := parentHeap_lt h.1
    rw [h4 k (by omega)]
    exact swapAt_of_ne _ (by omega) (by omega)
  | case2 q index h =>
    rw [shiftUp, if_neg h]
    exact ⟨rfl, rfl, rfl, fun _ _ => rfl⟩

theorem shiftUp_le (q : QueueConnectionsType) (time : ℤ) (index : ℕ) :
    (shiftUp q time index).2 ≤ index := by
  induction q, index using shiftUp.induct time with
  | case1 q index h ih =>
    rw [shiftUp_of_turns h]
    exact ih.trans (parentHeap_lt h.1).le
  | case2 q index h => rw [shiftUp_of_not_turns h]

theorem shiftUp_start (h : ShiftUpTurns q time index) :
    (shiftUp q time index).1.connections index = q.connections (parentHeap index) := by
  rw [shiftUp_of_turns h, (shiftUp_frame _ _ _).2.2.2 index (parentHeap_lt h.1)]
  exact swapAt_left _ _ _

end ShiftUp

/-! ### Well-indexed queues -/

/-- The descriptors of clients: 0 is taken, and larger ones do not fit the index array. -/
def ClientFd (fd : ℕ) : Prop := 1 ≤ fd ∧ fd < maxEpollEvents

instance (fd : ℕ) : Decidable (ClientFd fd) := inferInstanceAs (Decidable (_ ∧ _))

/-- The queue stores records of client descriptors in an array of the declared size. -/
structure Sized (q : QueueConnectionsType) : Prop where
  capacity : q.capacity = maxEpollEvents
  clientFd : ∀ i < q.currentSize, ClientFd (q.fd i)

/-- Distinct descriptors below the size of the array leave room for one more. -/
theorem Sized.not_full {q : QueueConnectionsType} (h : Sized q) (he : q.IndexExact) :
    q.currentSize < q.capacity := by
  have hcard := Tracks.le_card he (Finset.Ico 1 maxEpollEvents) fun i hi =>
    Finset.mem_Ico.mpr (h.clientFd i hi)
  have : q.currentSize ≤ maxEpollEvents - 1 := by simpa using hcard
  rw [h.capacity]
  exact lt_of_le_of_lt this (by decide)

theorem Sized.rearranges {q q' : QueueConnectionsType} (h : Sized q) (hr : q.Rearranges q') :
    Sized q' := by
  refine ⟨hr.capacity.trans h.capacity, fun i hi => ?_⟩
  obtain ⟨j, hj, e⟩ := hr.bwd i (hr.size ▸ hi)
  have := h.clientFd j hj
  unfold QueueConnectionsType.fd at *
  rwa [← e]

theorem sized_createQueueConnections : Sized createQueueConnections :=
  ⟨rfl, fun i hi => absurd hi (Nat.not_lt_zero i)⟩

theorem indexExact_createQueueConnections : createQueueConnections.IndexExact :=
  ⟨fun i hi => absurd hi (Nat.not_lt_zero i), fun fd i h => by cases h⟩

/-- The abstract content of the queue: the record it holds for each descriptor. -/
abbrev FdMap := ℕ → Option QueueConnectionElementType

section Operations

variable {q : QueueConnectionsType} {connection : QueueConnectionElementType} {fd index : ℕ}
  {now : ℤ} {mem : RequestBlock}

theorem getConnectionByFd_eq_none : getConnectionByFd q fd = none ↔ q.indexQueue fd = none :=
  Option.map_eq_none_iff

theorem getConnectionByFd_fd (h : q.IndexExact) {i : ℕ} (hi : i < q.currentSize) :
    getConnectionByFd q (q.fd i) = some (q.connections i) := by
  unfold getConnectionByFd
  rw [h.pos_name i hi]
  rfl

theorem getConnectionByFd_eq_some (h : q.IndexExact) :
    getConnectionByFd q fd = some connection ↔
      ∃ i < q.currentSize, q.connections i = connection ∧ connection.clientFd = fd :=
  find_eq_some QueueConnectionElementType.clientFd h

/-! ### Enqueue -/

/-- The queue with the record in the first free slot, not yet in the index. -/
def appended (q : QueueConnectionsType) (connection : QueueConnectionElementType) :
    QueueConnectionsType :=
  { q.setConnection q.currentSize connection with currentSize := q.currentSize + 1 }

theorem appended_shiftUpTurns :
    ShiftUpTurns (appended q connection) now q.currentSize ↔ ShiftUpTurns q now q.currentSize := by
  unfold ShiftUpTurns
  refine and_congr_right fun h0 => ?_
  have hp := parentHeap_lt h0
  have : (appended q connection).time (parentHeap q.currentSize) =
      q.time (parentHeap q.currentSize) := by
    simp [appended, setConnection, QueueConnectionsType.time, Function.update_of_ne hp.ne]
  rw [this]

theorem enqueueConnection_eq (hfull : q.currentSize ≠ q.capacity) :
    enqueueConnection q connection =
      (shiftUp (appended q connection) connection.priorityTime q.currentSize).1.setIndex
        connection.clientFd
        (some (shiftUp (appended q connection) connection.priorityTime q.currentSize).2) := by
  unfold enqueueConnection
  rw [if_neg hfull]
  rfl

theorem enqueueConnection_of_not_turns (hfull : q.currentSize ≠ q.capacity)
    (ht : ¬ ShiftUpTurns q connection.priorityTime q.currentSize) :
    enqueueConnection q connection =
      (appended q connection).setIndex connection.clientFd (some q.currentSize) := by
  rw [enqueueConnection_eq hfull, shiftUp_of_not_turns (mt appended_shiftUpTurns.mp ht)]

theorem appended_indexExact (h : q.IndexExact) (habs : q.indexQueue connection.clientFd = none) :
    ((appended q connection).setIndex connection.clientFd (some q.currentSize)).IndexExact := by
  have hfd : ((appended q connection).setIndex connection.clientFd (some q.currentSize)).fd =
      Function.update q.fd q.currentSize connection.clientFd := by
    funext k
    by_cases hk : k = q.currentSize
    · subst hk; simp [QueueConnectionsType.fd, setIndex, appended, setConnection]
    · simp [QueueConnectionsType.fd, setIndex, appended, setConnection, hk]
  unfold IndexExact
  rw [hfd]
  exact Tracks.push h habs

/-- **Enqueue and the index.** The record that the shift-up loop moves down keeps its old index
entry. -/
theorem enqueueConnection_indexExact_iff (h : q.IndexExact) (hfull : q.currentSize ≠ q.capacity)
    (habs : q.indexQueue connection.clientFd = none) :
    (enqueueConnection q connection).IndexExact ↔
      ¬ ShiftUpTurns q connection.priorityTime q.currentSize := by
  constructor
  · intro he ht
    have hp := parentHeap_lt ht.1
    have ht' : ShiftUpTurns (appended q connection) connection.priorityTime q.currentSize :=
      appended_shiftUpTurns.mpr ht
    obtain ⟨hidx, hsize, -, -⟩ := shiftUp_frame (appended q connection) connection.priorityTime
      q.currentSize
    have hstart := shiftUp_start ht'
    rw [enqueueConnection_eq hfull] at he
    have hslot := he.pos_name q.currentSize (by
      show q.currentSize < (shiftUp _ _ _).1.currentSize
      rw [hsize]; exact Nat.lt_succ_self _)
    -- the displaced parent, which the table still gives in its old slot
    have hname : ((shiftUp (appended q connection) connection.priorityTime
        q.currentSize).1.connections q.currentSize).clientFd = q.fd (parentHeap q.currentSize) := by
      rw [hstart]
      simp [appended, setConnection, Function.update_of_ne hp.ne, QueueConnectionsType.fd]
    have hne := h.name_ne_of_pos_none habs _ hp
    simp only [QueueConnectionsType.fd, setIndex, hidx] at hslot hname hne
    rw [hname, Function.update_of_ne hne] at hslot
    have hold := h.pos_name _ hp
    simp only [QueueConnectionsType.fd] at hold
    rw [show (appended q connection).indexQueue = q.indexQueue from rfl, hold] at hslot
    exact hp.ne (Option.some.inj hslot)
  · intro ht
    rw [enqueueConnection_of_not_turns hfull ht]
    exact appended_indexExact h habs

/-- Where the loop does not turn, enqueueing adds one binding to the map. -/
theorem enqueueConnection_map (h : q.IndexExact) (hfull : q.currentSize ≠ q.capacity)
    (ht : ¬ ShiftUpTurns q connection.priorityTime q.currentSize) :
    getConnectionByFd (enqueueConnection q connection) =
      Function.update (getConnectionByFd q) connection.clientFd (some connection) := by
  rw [enqueueConnection_of_not_turns hfull ht]
  funext x
  unfold getConnectionByFd
  by_cases hx : x = connection.clientFd
  · subst hx; simp [setIndex, appended, setConnection]
  · rw [Function.update_of_ne hx]
    simp only [setIndex, appended, setConnection, Function.update_of_ne hx]
    cases hi : q.indexQueue x with
    | none => rfl
    | some i =>
      have := (h.name_pos x i hi).1
      simp [Function.update_of_ne this.ne]

theorem enqueueConnection_sized (h : Sized q) (hfull : q.currentSize ≠ q.capacity)
    (ht : ¬ ShiftUpTurns q connection.priorityTime q.currentSize)
    (hfd : ClientFd connection.clientFd) : Sized (enqueueConnection q connection) := by
  rw [enqueueConnection_of_not_turns hfull ht]
  refine ⟨h.capacity, fun i hi => ?_⟩
  have hi : i < q.currentSize + 1 := hi
  by_cases hiq : i = q.currentSize
  · subst hiq
    simpa [QueueConnectionsType.fd, setIndex, appended, setConnection] using hfd
  · have := h.clientFd i (by omega)
    simpa [QueueConnectionsType.fd, setIndex, appended, setConnection, hiq] using this

/-! ### Update -/

/-- Replacing the record of a slot by one for the same descriptor leaves the index exact. -/
theorem setConnection_indexExact (h : q.IndexExact) (hfd : connection.clientFd = q.fd index) :
    (q.setConnection index connection).IndexExact := by
  refine Tracks.congr h fun i _ => ?_
  by_cases hi : i = index
  · subst hi; simpa [QueueConnectionsType.fd, setConnection] using hfd
  · simp [QueueConnectionsType.fd, setConnection, hi]

theorem setConnection_sized (h : Sized q) (hfd : connection.clientFd = q.fd index) :
    Sized (q.setConnection index connection) := by
  refine ⟨h.capacity, fun i hi => ?_⟩
  have := h.clientFd i hi
  by_cases hi : i = index
  · subst hi; simpa [QueueConnectionsType.fd, setConnection, hfd] using this
  · simpa [QueueConnectionsType.fd, setConnection, hi] using this

/-- Replacing the record of the slot the index gives for `fd` changes that binding only. -/
theorem setConnection_map (h : q.IndexExact) (hi : q.indexQueue fd = some index) :
    getConnectionByFd (q.setConnection index connection) =
      Function.update (getConnectionByFd q) fd (some connection) := by
  funext x
  unfold getConnectionByFd
  by_cases hx : x = fd
  · subst hx; simp [setConnection, hi]
  · rw [Function.update_of_ne hx]
    cases hj : q.indexQueue x with
    | none => simp [setConnection, hj]
    | some j =>
      have hne : j ≠ index := by
        rintro rfl
        exact hx ((h.name_pos x j hj).2.symm.trans (h.name_pos fd j hi).2)
      simp [setConnection, hj, Function.update_of_ne hne]

/-- The shift-up branch of `updateQueueConnection` is entered and its loop turns. -/
def UpdateTurns (q : QueueConnectionsType) (fd : ℕ) (now : ℤ) : Prop :=
  ∃ index, q.indexQueue fd = some index ∧
    difftime now (q.time index) < 0 ∧ ShiftUpTurns q now index

instance : Decidable (UpdateTurns q fd now) :=
  match hi : q.indexQueue fd with
  | none => isFalse fun ⟨_, hj, _⟩ => by rw [hi] at hj; cases hj
  | some index =>
    decidable_of_iff (difftime now (q.time index) < 0 ∧ ShiftUpTurns q now index)
      ⟨fun h => ⟨index, hi, h⟩, fun ⟨_, hj, h⟩ => Option.some.inj (hi.symm.trans hj) ▸ h⟩

theorem setConnection_shiftUpTurns :
    ShiftUpTurns (q.setConnection index connection) now index ↔ ShiftUpTurns q now index := by
  unfold ShiftUpTurns
  refine and_congr_right fun h0 => ?_
  have hp := parentHeap_lt h0
  simp [setConnection, QueueConnectionsType.time, Function.update_of_ne hp.ne]

theorem setIndex_self (hi : q.indexQueue fd = some index) : q.setIndex fd (some index) = q := by
  unfold setIndex
  rw [← hi, Function.update_eq_self]

/-- Where the shift-up loop does not turn, the update rearranges the queue in which the slot of `fd`
has been given a fresh record. -/
theorem updateQueueConnection_rearranges (mem : RequestBlock) (hi : q.indexQueue fd = some index)
    (ht : ¬ UpdateTurns q fd now) :
    ∃ q', updateQueueConnection q fd now mem = some q' ∧
      (q.setConnection index (freshConnection fd now mem)).Rearranges q' := by
  unfold updateQueueConnection
  rw [hi]
  refine ⟨_, rfl, ?_⟩
  dsimp only
  split
  · rename_i hlt
    have hst : ¬ ShiftUpTurns (q.setConnection index (freshConnection fd now mem)) now index :=
      fun h => ht ⟨index, hi, hlt, setConnection_shiftUpTurns.mp h⟩
    rw [shiftUp_of_not_turns hst, setIndex_self (by exact hi)]
    exact Rearranges.refl _
  · exact heapify_rearranges _ _

/-- **Update and the index.** As in `enqueueConnection`, only the shift-up loop loses an entry. -/
theorem updateQueueConnection_indexExact_iff (now : ℤ) (mem : RequestBlock) (h : q.IndexExact)
    (hi : q.indexQueue fd = some index) :
    (∃ q', updateQueueConnection q fd now mem = some q' ∧ q'.IndexExact) ↔
      ¬ UpdateTurns q fd now := by
  have hfd : (freshConnection fd now mem).clientFd = q.fd index := (h.name_pos fd index hi).2.symm
  constructor
  · rintro ⟨q', hq', he⟩ ⟨i, hi', hlt, ht⟩
    obtain rfl : i = index := Option.some.inj (hi'.symm.trans hi)
    have hp := parentHeap_lt ht.1
    have hin := (h.name_pos fd i hi).1
    unfold updateQueueConnection at hq'
    rw [hi] at hq'
    dsimp only [Option.map_some] at hq'
    rw [if_pos hlt] at hq'
    obtain rfl := Option.some.inj hq'
    set q₁ := q.setConnection i (freshConnection fd now mem) with hq₁
    obtain ⟨hidx, hsize, -, -⟩ := shiftUp_frame q₁ now i
    have hstart := shiftUp_start (setConnection_shiftUpTurns.mpr ht :
      ShiftUpTurns (q.setConnection i (freshConnection fd now mem)) now i)
    rw [← hq₁] at hstart
    have hslot := he.pos_name i (by
      show i < (shiftUp _ _ _).1.currentSize
      rw [hsize]; exact hin)
    have hname : ((shiftUp q₁ now i).1.connections i).clientFd = q.fd (parentHeap i) := by
      rw [hstart, hq₁]
      simp [setConnection, Function.update_of_ne hp.ne, QueueConnectionsType.fd]
    have hne : q.fd (parentHeap i) ≠ fd := by
      rw [← (h.name_pos fd i hi).2]
      exact h.name_ne (by omega) hin hp.ne
    simp only [QueueConnectionsType.fd, setIndex, hidx] at hslot hname hne
    rw [hname, Function.update_of_ne hne] at hslot
    have hold := h.pos_name (parentHeap i) (by omega)
    simp only [QueueConnectionsType.fd] at hold
    rw [show q₁.indexQueue = q.indexQueue from rfl, hold] at hslot
    exact hp.ne (Option.some.inj hslot)
  · intro ht
    obtain ⟨q', hq', hr⟩ := updateQueueConnection_rearranges mem hi ht
    exact ⟨q', hq', hr.exact (setConnection_indexExact h hfd)⟩

/-- Where the shift-up loop does not turn, the update replaces one binding of the map. -/
theorem updateQueueConnection_spec (mem : RequestBlock) (h : q.IndexExact) (hs : Sized q)
    (hi : q.indexQueue fd = some index) (ht : ¬ UpdateTurns q fd now) :
    ∃ q', updateQueueConnection q fd now mem = some q' ∧ q'.IndexExact ∧ Sized q' ∧
      getConnectionByFd q' =
        Function.update (getConnectionByFd q) fd (some (freshConnection fd now mem)) := by
  have hfd : (freshConnection fd now mem).clientFd = q.fd index := (h.name_pos fd index hi).2.symm
  have h₁ := setConnection_indexExact h hfd
  obtain ⟨q', hq', hr⟩ := updateQueueConnection_rearranges mem hi ht
  refine ⟨q', hq', hr.exact h₁, (setConnection_sized hs hfd).rearranges hr, ?_⟩
  rw [hr.getConnectionByFd_eq h₁, setConnection_map h hi]

/-! ### Dequeue -/

/-- The two dequeue functions before their sift down: the last record over the slot `index`. -/
def replaced (q : QueueConnectionsType) (index : ℕ) : QueueConnectionsType :=
  let fdLast := q.fd (q.currentSize - 1)
  let q₁ := q.setConnection index (q.connections (q.currentSize - 1))
  let q₂ := q₁.setConnection (q.currentSize - 1) emptyConnection
  let q₃ := { q₂ with currentSize := q₂.currentSize - 1 }
  (q₃.setIndex (q.fd index) none).setIndex fdLast (some index)

/-- The two dequeue functions on the last record. -/
def dropped (q : QueueConnectionsType) : QueueConnectionsType :=
  { q.setConnection (q.currentSize - 1) emptyConnection with
    currentSize := q.currentSize - 1 }.setIndex (q.fd (q.currentSize - 1)) none

theorem dequeueConnectionByFd_eq (h : q.IndexExact) (hi : q.indexQueue fd = some index) :
    dequeueConnectionByFd q fd =
      if index = q.currentSize - 1 then dropped q else heapify (replaced q index) index := by
  obtain ⟨hin, hfd⟩ := h.name_pos fd index hi
  unfold dequeueConnectionByFd
  rw [if_neg (by omega), hi]
  dsimp only
  by_cases hlast : index = q.currentSize - 1
  · have hl : q.fd (q.currentSize - 1) = fd := by rw [← hlast, hfd]
    rw [if_pos hlast, if_pos hl]
    unfold dropped
    rw [hl]
    rfl
  · have hne : q.fd (q.currentSize - 1) ≠ fd := by
      rw [← hfd]
      exact h.name_ne (by omega) hin (by omega)
    rw [if_neg hlast, if_neg hne]
    unfold replaced
    rw [hfd]
    congr 2
    unfold swapConnectionElementHeap setConnection setIndex swapAt
    simp

theorem dequeueConnection_eq (h : q.IndexExact) (h0 : q.currentSize ≠ 0) :
    dequeueConnection q = dequeueConnectionByFd q (q.fd 0) := by
  have hi : q.indexQueue (q.fd 0) = some 0 := h.pos_name 0 (by omega)
  rw [dequeueConnectionByFd_eq h hi]
  unfold dequeueConnection
  rw [if_neg h0]
  dsimp only
  by_cases hlast : 0 = q.currentSize - 1
  · have hl : q.fd 0 = q.fd (q.currentSize - 1) := by rw [← hlast]
    rw [if_pos hlast, if_pos hl]
    unfold dropped
    rw [← hl]
    simp [setConnection, setIndex, ← hlast]
  · rw [if_neg hlast, if_neg (h.name_ne (by omega) (by omega) hlast)]
    rfl

theorem dropped_indexExact (h : q.IndexExact) (h0 : q.currentSize ≠ 0) :
    (dropped q).IndexExact := by
  unfold IndexExact at *
  obtain ⟨n, hn⟩ := Nat.exists_eq_succ_of_ne_zero h0
  have hlast : q.currentSize - 1 = n := by omega
  rw [hn] at h
  have hpop := Tracks.pop h (dropped q).fd fun i hi => by
    simp [QueueConnectionsType.fd, dropped, setIndex, setConnection, hlast,
      Function.update_of_ne (show i ≠ n by omega)]
  rw [show (dropped q).currentSize = n from hlast]
  simpa [dropped, setIndex, setConnection, hlast] using hpop

theorem replaced_fd {k : ℕ} (hk : k < q.currentSize - 1) :
    (replaced q index).fd k = if k = index then q.fd (q.currentSize - 1) else q.fd k := by
  have hne : k ≠ q.currentSize - 1 := hk.ne
  by_cases hki : k = index
  · subst hki
    simp [QueueConnectionsType.fd, replaced, setIndex, setConnection, Function.update_of_ne hne]
  · simp [QueueConnectionsType.fd, replaced, setIndex, setConnection, Function.update_of_ne hne,
      hki]

theorem replaced_indexExact (h : q.IndexExact) (hin : index < q.currentSize - 1) :
    (replaced q index).IndexExact := by
  unfold IndexExact at *
  obtain ⟨n, hn⟩ := Nat.exists_eq_succ_of_ne_zero (show q.currentSize ≠ 0 by omega)
  have hlast : q.currentSize - 1 = n := by omega
  rw [hlast] at hin
  rw [hn] at h
  have hrep := Tracks.replaceLast h hin (replaced q index).fd
    (by rw [replaced_fd (by omega), if_pos rfl, hlast])
    (fun k hk hki => by rw [replaced_fd (by omega), if_neg hki])
  rw [show (replaced q index).currentSize = n from hlast]
  simpa [replaced, setIndex, setConnection, hlast] using hrep

theorem dropped_map (h : q.IndexExact) :
    getConnectionByFd (dropped q) =
      Function.update (getConnectionByFd q) (q.fd (q.currentSize - 1)) none := by
  funext x
  unfold getConnectionByFd
  by_cases hx : x = q.fd (q.currentSize - 1)
  · subst hx; simp [dropped, setIndex, setConnection]
  · rw [Function.update_of_ne hx]
    simp only [dropped, setIndex, setConnection, Function.update_of_ne hx]
    cases hj : q.indexQueue x with
    | none => rfl
    | some j =>
      have hne : j ≠ q.currentSize - 1 := by
        rintro rfl
        exact hx (h.name_pos x _ hj).2.symm
      simp [Function.update_of_ne hne]

theorem replaced_map (h : q.IndexExact) (hin : index < q.currentSize - 1) :
    getConnectionByFd (replaced q index) =
      Function.update (getConnectionByFd q) (q.fd index) none := by
  have hne : q.fd (q.currentSize - 1) ≠ q.fd index :=
    h.name_ne (by omega) (by omega) (by omega)
  have hlast := h.pos_name (q.currentSize - 1) (by omega)
  funext x
  unfold getConnectionByFd
  by_cases hx : x = q.fd index
  · subst hx
    simp [replaced, setIndex, setConnection, Function.update_of_ne hne.symm]
  rw [Function.update_of_ne hx]
  by_cases hxl : x = q.fd (q.currentSize - 1)
  · subst hxl
    rw [hlast]
    simp [replaced, setIndex, setConnection, Function.update_of_ne hin.ne]
  · simp only [replaced, setIndex, setConnection, Function.update_of_ne hx,
      Function.update_of_ne hxl]
    cases hj : q.indexQueue x with
    | none => rfl
    | some j =>
      have hjl : j ≠ q.currentSize - 1 := by
        rintro rfl; exact hxl (h.name_pos x _ hj).2.symm
      have hji : j ≠ index := by
        rintro rfl; exact hx (h.name_pos x _ hj).2.symm
      simp [Function.update_of_ne hjl, Function.update_of_ne hji]

theorem dequeueConnectionByFd_of_none (hi : q.indexQueue fd = none) :
    dequeueConnectionByFd q fd = q := by
  unfold dequeueConnectionByFd
  rw [hi, ite_self]

/-- Dequeueing a descriptor removes its binding from the map and keeps everything else. -/
theorem dequeueConnectionByFd_spec (h : q.IndexExact) (hs : Sized q) (fd : ℕ) :
    (dequeueConnectionByFd q fd).IndexExact ∧ Sized (dequeueConnectionByFd q fd) ∧
      getConnectionByFd (dequeueConnectionByFd q fd) =
        Function.update (getConnectionByFd q) fd none := by
  cases hi : q.indexQueue fd with
  | none =>
    rw [dequeueConnectionByFd_of_none hi]
    refine ⟨h, hs, ?_⟩
    rw [eq_comm, Function.update_eq_self_iff, eq_comm, getConnectionByFd_eq_none]
    exact hi
  | some index =>
    obtain ⟨hin, hfd⟩ := h.name_pos fd index hi
    rw [dequeueConnectionByFd_eq h hi]
    split
    · rename_i hlast
      have h0 : q.currentSize ≠ 0 := by omega
      refine ⟨dropped_indexExact h h0, ⟨hs.capacity, fun k hk => ?_⟩, ?_⟩
      · have hk : k < q.currentSize - 1 := hk
        have := hs.clientFd k (by omega)
        simpa [QueueConnectionsType.fd, dropped, setIndex, setConnection,
          Function.update_of_ne hk.ne] using this
      · rw [dropped_map h, ← hlast, hfd]
    · have hil : index < q.currentSize - 1 := by omega
      have h₁ := replaced_indexExact h hil
      have hs₁ : Sized (replaced q index) := by
        refine ⟨hs.capacity, fun k hk => ?_⟩
        have hk : k < q.currentSize - 1 := hk
        rw [replaced_fd hk]
        split
        · exact hs.clientFd _ (by omega)
        · exact hs.clientFd _ (by omega)
      have hr := heapify_rearranges (replaced q index) index
      refine ⟨hr.exact h₁, hs₁.rearranges hr, ?_⟩
      rw [hr.getConnectionByFd_eq h₁, replaced_map h hil, hfd]

/-- Dequeueing the root of a non-empty queue removes the binding of its descriptor. -/
theorem dequeueConnection_spec (h : q.IndexExact) (hs : Sized q) :
    (dequeueConnection q).IndexExact ∧ Sized (dequeueConnection q) := by
  by_cases h0 : q.currentSize = 0
  · rw [dequeueConnection, if_pos h0]
    exact ⟨h, hs⟩
  · rw [dequeueConnection_eq h h0]
    obtain ⟨h1, h2, -⟩ := dequeueConnectionByFd_spec h hs (q.fd 0)
    exact ⟨h1, h2⟩

end Operations

end UbServer

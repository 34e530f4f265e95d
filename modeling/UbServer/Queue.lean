import UbServer.Connection
import UbServer.Lib.MinHeap

/-!
# The queue of connections

`queue_connections.c`: a min-heap of connection records ordered by `priorityTime`, and the array
`indexQueue` that gives the slot of a descriptor. An entry `-1` of `indexQueue` is `none`. The
two arrays are functions on `ℕ`; the functions that are called with a descriptor of a client test
it against the size of `indexQueue` and end in `none` where the code would index past it.

`time(NULL)` and the content of the block `malloc` returns are arguments. `difftime` is exact.
`freeConnection` frees the blocks of a record and closes the file of its body, neither of which is
part of the queue.
-/

namespace UbServer

open MinHeap (swapAt)

def difftime (a b : ℤ) : ℤ := a - b

structure QueueConnectionsType where
  currentSize : ℕ
  capacity : ℕ
  indexQueue : ℕ → Option ℕ
  connections : ℕ → QueueConnectionElementType

/-- The record that `memset` to 0 leaves: unlike `emptyConnection` its `bodyFd` is 0. -/
def zeroedConnection : QueueConnectionElementType := { emptyConnection with bodyFd := 0 }

def createQueueConnections : QueueConnectionsType where
  currentSize := 0
  capacity := maxEpollEvents
  indexQueue := fun _ => none
  connections := fun _ => zeroedConnection

def leftChildHeap (element : ℕ) : ℕ := 2 * element + 1

def rightChildHeap (element : ℕ) : ℕ := 2 * element + 2

def parentHeap (element : ℕ) : ℕ := (element - 1) / 2

theorem parentHeap_lt {i : ℕ} (h : i ≠ 0) : parentHeap i < i := by unfold parentHeap; omega

namespace QueueConnectionsType

variable (q : QueueConnectionsType)

/-- The time the record in a slot is ordered by. -/
def time (i : ℕ) : ℤ := (q.connections i).priorityTime

/-- The descriptor the record in a slot is for. -/
def fd (i : ℕ) : ℕ := (q.connections i).clientFd

/-- `connections[i] = connection`. -/
def setConnection (i : ℕ) (connection : QueueConnectionElementType) : QueueConnectionsType :=
  { q with connections := Function.update q.connections i connection }

/-- `indexQueue[fd] = index`. -/
def setIndex (fd : ℕ) (index : Option ℕ) : QueueConnectionsType :=
  { q with indexQueue := Function.update q.indexQueue fd index }

/-- `swapConnectionElementHeap(&connections[i], &connections[j])`. -/
def swapConnectionElementHeap (i j : ℕ) : QueueConnectionsType :=
  { q with connections := swapAt q.connections i j }

/-- The local `smallest` of `heapify` after its two tests. -/
def smallest (index : ℕ) : ℕ :=
  let left := leftChildHeap index
  let right := rightChildHeap index
  let smallest := if left < q.currentSize ∧ difftime (q.time left) (q.time index) < 0
    then left else index
  if right < q.currentSize ∧ difftime (q.time right) (q.time smallest) < 0
    then right else smallest

theorem smallest_bounds {index : ℕ} (h : q.smallest index ≠ index) :
    index < q.smallest index ∧ q.smallest index < q.currentSize := by
  unfold smallest leftChildHeap rightChildHeap at *
  grind

/-- Swap the slots, then repair the index entries of the two records moved. -/
def swapRepaired (index smallest : ℕ) : QueueConnectionsType :=
  let q₁ := q.swapConnectionElementHeap index smallest
  let q₂ := q₁.setIndex (q₁.fd index) (some index)
  q₂.setIndex (q₁.fd smallest) (some smallest)

end QueueConnectionsType

/-- Shift down. -/
def heapify (q : QueueConnectionsType) (index : ℕ) : QueueConnectionsType :=
  let smallest := q.smallest index
  if smallest ≠ index then heapify (q.swapRepaired index smallest) smallest else q
termination_by q.currentSize - index
decreasing_by
  have := q.smallest_bounds ‹_›
  simp only [QueueConnectionsType.swapRepaired, QueueConnectionsType.setIndex,
    QueueConnectionsType.swapConnectionElementHeap]
  omega

/-- The test of the shift-up loop. -/
def ShiftUpTurns (q : QueueConnectionsType) (time : ℤ) (index : ℕ) : Prop :=
  index ≠ 0 ∧ difftime time (q.time (parentHeap index)) < 0

instance (q : QueueConnectionsType) (time : ℤ) (index : ℕ) : Decidable (ShiftUpTurns q time index) :=
  inferInstanceAs (Decidable (_ ∧ _))

/-- The shift-up loop that `enqueueConnection` and `updateQueueConnection` each contain: move the
record at `index`, stamped `time`, while it is before its parent. No index entry is touched. -/
def shiftUp (q : QueueConnectionsType) (time : ℤ) (index : ℕ) : QueueConnectionsType × ℕ :=
  if ShiftUpTurns q time index then
    shiftUp (q.swapConnectionElementHeap index (parentHeap index)) time (parentHeap index)
  else (q, index)
termination_by index
decreasing_by exact parentHeap_lt (And.left ‹_›)

def enqueueConnection (q : QueueConnectionsType) (connection : QueueConnectionElementType) :
    QueueConnectionsType :=
  if q.currentSize = q.capacity then q
  else
    let q₁ := q.setConnection q.currentSize connection
    let q₂ := { q₁ with currentSize := q₁.currentSize + 1 }
    let (q₃, indexQueue) := shiftUp q₂ connection.priorityTime (q₂.currentSize - 1)
    q₃.setIndex connection.clientFd (some indexQueue)

/-- The descriptor is a valid index of the array `indexQueue`. -/
def InIndexQueue (fd : ℕ) : Prop := fd < maxEpollEvents

instance (fd : ℕ) : Decidable (InIndexQueue fd) := inferInstanceAs (Decidable (fd < _))

def existsConnection (q : QueueConnectionsType) (clientFd : ℕ) : Bool :=
  (q.indexQueue clientFd).isSome

/-- The queue and the slot of the record returned; `none` is `die`, or indexing past
`indexQueue`. -/
def getConnectionOrCreateByFd (q : QueueConnectionsType) (fd : ℕ) (now : ℤ) (mem : RequestBlock) :
    Option (QueueConnectionsType × ℕ) :=
  if InIndexQueue fd then
    match q.indexQueue fd with
    | some index => some (q, index)
    | none =>
      let q₁ := enqueueConnection q (freshConnection fd now mem)
      -- still -1 when the queue was full: "getConnectionByFd: bad queue index"
      (q₁.indexQueue fd).map fun index => (q₁, index)
  else none

def getConnectionByFd (q : QueueConnectionsType) (fd : ℕ) : Option QueueConnectionElementType :=
  (q.indexQueue fd).map q.connections

/-- `none` where the code reads `connections[-1]`: its caller tests `existsConnection` first. -/
def updateQueueConnection (q : QueueConnectionsType) (fd : ℕ) (now : ℤ) (mem : RequestBlock) :
    Option QueueConnectionsType :=
  (q.indexQueue fd).map fun index =>
    let oldPriorityTime := q.time index
    let q₁ := q.setConnection index (freshConnection fd now mem)
    if difftime now oldPriorityTime < 0 then
      let (q₂, index) := shiftUp q₁ now index
      q₂.setIndex fd (some index)
    else heapify q₁ index

def dequeueConnection (q : QueueConnectionsType) : QueueConnectionsType :=
  if q.currentSize = 0 then q
  else
    let fdFirst := q.fd 0
    let fdLast := q.fd (q.currentSize - 1)
    if fdFirst = fdLast then
      let q₁ := (q.setConnection 0 emptyConnection).setIndex fdFirst none
      { q₁ with currentSize := q₁.currentSize - 1 }
    else
      let q₁ := q.setConnection 0 (q.connections (q.currentSize - 1))
      let q₂ := q₁.setConnection (q.currentSize - 1) emptyConnection
      let q₃ := { q₂ with currentSize := q₂.currentSize - 1 }
      heapify ((q₃.setIndex fdFirst none).setIndex fdLast (some 0)) 0

def dequeueConnectionByFd (q : QueueConnectionsType) (fd : ℕ) : QueueConnectionsType :=
  if q.currentSize = 0 then q
  else
    match q.indexQueue fd with
    | none => q
    | some index =>
      let fdLast := q.fd (q.currentSize - 1)
      if fdLast = fd then
        let q₁ := q.setConnection (q.currentSize - 1) emptyConnection
        { q₁ with currentSize := q₁.currentSize - 1 }.setIndex fd none
      else
        let q₁ := q.swapConnectionElementHeap index (q.currentSize - 1)
        let q₂ := q₁.setConnection (q.currentSize - 1) emptyConnection
        let q₃ := { q₂ with currentSize := q₂.currentSize - 1 }
        heapify ((q₃.setIndex fd none).setIndex fdLast (some index)) index

def peekQueueConnections (q : QueueConnectionsType) : Option QueueConnectionElementType :=
  if q.currentSize = 0 then none else some (q.connections 0)

end UbServer

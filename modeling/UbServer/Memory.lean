import UbServer.BodyBoundary
import UbServer.CleanSlate
import UbServer.Lib.Ownership

/-!
# The blocks of the heap

One thread and the blocks that its records point to. The calls of `malloc` and `free` are listed beside
the step that makes them, with the pointers of the record; `malloc` may return any address that is not in
use.

* `Pointers`: what the pointers of a record hold.
* `Worker.memory`, `shutdownMemory`: what a step and the shutdown do to the pointers and the heap.
* `Filled`: how far the request of a record is.
* `heapSafe`: a block is freed once, by the record that points to it, and no pointer of a record in the
  queue dangles.
* `leaked_iff`: a block is lost exactly when a request without header lines is parsed again.
-/

namespace UbServer

open CString Handles Runs QueueConnectionsType

/-! ### Pointers and calls -/

/-- A node of the list of headers: the addresses of its two strings and its own. -/
structure HeaderPointers where
  name : ℕ
  value : ℕ
  node : ℕ
  deriving DecidableEq

/-- The addresses in the pointers of a record, `NULL` being `none`. -/
structure Pointers where
  path : Option ℕ
  absolutePath : Option ℕ
  requestBuffer : Option ℕ
  responseBufferHeaders : Option ℕ
  requestHeaders : List HeaderPointers
  requestBody : Option ℕ
  deriving DecidableEq

/-- The pointers of `emptyConnection`. -/
def Pointers.null : Pointers := ⟨none, none, none, none, [], none⟩

/-- A call of `malloc` or `free`, with the client whose record is worked on. -/
abbrev MemoryCall := Call ℕ

/-- The addresses that the calls of `malloc`, `strdup` and `calloc` return for a header line. -/
structure HeaderMallocs where
  name : ℕ
  value : ℕ
  headerNode : ℕ
  nameLower : ℕ

/-- The addresses that the calls of a step return. The header lines are counted from 0. -/
structure Mallocs where
  requestBuffer : ℕ
  path : ℕ
  absolutePath : ℕ
  requestBody : ℕ
  header : ℕ → HeaderMallocs
  responseBufferHeaders : ℕ

/-- The pointers of a record after a function, and its calls. -/
abbrev MemoryChange := Pointers × List MemoryCall

/-! ### The functions -/

section Functions

variable (options : Options) (q : QueueConnectionsType) (sys : Sys) (m : Mallocs) (clientFd : ℕ)

/-- `free` of a pointer that is not `NULL`. -/
def freePointer (pointer : Option ℕ) : List MemoryCall :=
  pointer.toList.map fun address => .release address clientFd

def freeHeaderMemory (requestHeaders : List HeaderPointers) : List MemoryCall :=
  requestHeaders.flatMap fun header =>
    [.release header.name clientFd, .release header.value clientFd, .release header.node clientFd]

def freeConnectionMemory (p : Pointers) : List MemoryCall :=
  freePointer clientFd p.path ++ (freePointer clientFd p.absolutePath ++
    (freePointer clientFd p.requestBuffer ++ (freePointer clientFd p.responseBufferHeaders ++
      (freeHeaderMemory clientFd p.requestHeaders ++ freePointer clientFd p.requestBody))))

/-- The pointers of a record with a new `requestBuffer`. -/
def freshPointers : Pointers := { Pointers.null with requestBuffer := some m.requestBuffer }

def getConnectionOrCreateByFdMemory (p : Pointers) : MemoryChange :=
  match q.indexQueue clientFd with
  | none => (freshPointers m, [.acquire m.requestBuffer clientFd])
  | some _ => (p, [])

def updateQueueConnectionMemory (p : Pointers) : MemoryChange :=
  match q.indexQueue clientFd with
  | none => (p, [])
  | some _ => (freshPointers m, freeConnectionMemory clientFd p ++ [.acquire m.requestBuffer clientFd])

def dequeueConnectionByFdMemory (p : Pointers) : MemoryChange :=
  if q.currentSize = 0 then (p, [])
  else
    match q.indexQueue clientFd with
    | none => (p, [])
    | some _ => (.null, freeConnectionMemory clientFd p)

/-- The loop of `processRequest` over the header lines. -/
def headersLoopMemory : List HeaderMallocs → List HeaderPointers →
    List HeaderPointers × List MemoryCall
  | [], requestHeaders => (requestHeaders, [])
  | line :: lines, requestHeaders =>
    let (requestHeaders, calls) := headersLoopMemory lines
      (⟨line.nameLower, line.value, line.headerNode⟩ :: requestHeaders)
    (requestHeaders, .acquire line.name clientFd :: .acquire line.value clientFd ::
      .acquire line.headerNode clientFd :: .acquire line.nameLower clientFd ::
        .release line.name clientFd :: calls)

/-- The part of `processRequest` after the request line, which ends at `firstLineLength`. -/
def processHeadersMemory (text : Bytes) (firstLineLength : ℕ) (p : Pointers) : MemoryChange :=
  let buffer := text.drop (firstLineLength + 2)
  match strstr crlfcrlf buffer with
  | none => (p, [])
  | some endOfHeaders =>
    let body := buffer.drop (endOfHeaders + 4)
    let headersSize := firstLineLength + 2 + (endOfHeaders + 4) - firstLineLength
    let headersString := (text.drop firstLineLength).take headersSize
    let lines := (strtok isLineBreak headersString).length
    let headers := headersLoopMemory clientFd ((List.range lines).map m.header) p.requestHeaders
    if body = [] then ({ p with requestHeaders := headers.1 }, headers.2)
    else
      ({ p with requestBody := some m.requestBody, requestHeaders := headers.1 },
        .acquire m.requestBody clientFd :: headers.2)

/-- The calls of `processRequest`. They are made only where it gets to the request line. -/
def processRequestMemory (connection : QueueConnectionElementType) (p : Pointers) :
    MemoryChange :=
  let text := cString (connection.requestBuffer.getD [])
  match sys.request.peer, strstr crlf text with
  | some _, some firstLineLength =>
    match scanRequestLine sys.request (text.take firstLineLength) with
    | none => (p, [])
    | some (method, _, _) =>
      let p := { p with path := some m.path }
      if strToMethod method = .unsupported then (p, [.acquire m.path clientFd])
      else
        let headers := processHeadersMemory m clientFd text firstLineLength
          { p with absolutePath := some m.absolutePath }
        (headers.1, .acquire m.path clientFd :: .acquire m.absolutePath clientFd :: headers.2)
  | _, _ => (p, [])

/-- `makeResponse` if there is no response yet. -/
def respondMemory (connection : QueueConnectionElementType) (p : Pointers) : MemoryChange :=
  if connection.responseBufferHeaders = none then
    ({ p with responseBufferHeaders := some m.responseBufferHeaders },
      [.acquire m.responseBufferHeaders clientFd])
  else (p, [])

/-- `case STATE_CONNECTION_SEND_HEADERS`. -/
def sendHeadersCaseMemory (connection : QueueConnectionElementType) (p : Pointers) : MemoryChange :=
  if connection.requestHeaders = [] then
    let parsed := processRequestMemory sys m clientFd connection p
    match processRequest options sys.request connection with
    | none => parsed
    | some (isValidRequest, connection) =>
      if ¬ isValidRequest then parsed
      else if ¬ supportedProtocol connection.protocolVersion then parsed
      else if isHello connection.path then parsed
      else
        let responded := respondMemory m clientFd connection parsed.1
        (responded.1, parsed.2 ++ responded.2)
  else respondMemory m clientFd connection p

end Functions

/-- One step of the loop of a client, whose record has the pointers `p`. -/
def EventLoop.memory (options : Options) (q : QueueConnectionsType) (e : EventLoop) (sys : Sys)
    (m : Mallocs) (p : Pointers) : MemoryChange :=
  let connection := q.connections e.slot
  match e.pc with
  | .switch =>
    match connection.state with
    | .sendHeaders => sendHeadersCaseMemory options sys m e.clientFd connection p
    | .done =>
      if connection.keepAlive ∧ existsConnection q e.clientFd then
        updateQueueConnectionMemory q m e.clientFd p
      else (p, [])
    | .doneForClose =>
      if existsConnection q e.clientFd then dequeueConnectionByFdMemory q e.clientFd p else (p, [])
    | _ => (p, [])
  | _ => (p, [])

/-- The client whose record a step of the thread works on, with the change. -/
def Worker.memory (options : Options) (w : Worker) (m : Mallocs) (pointers : ℕ → Pointers) :
    WorkerAction → Option (ℕ × MemoryChange)
  | .sweep =>
    match w.phase with
    | .sweeping now =>
      match w.queue.expired now with
      | some fd =>
        if existsConnection w.queue fd then
          some (fd, dequeueConnectionByFdMemory w.queue fd (pointers fd))
        else none
      | none => none
    | _ => none
  | .nextEvent .. =>
    match w.phase with
    | .processing (.client fd true :: _) =>
      some (fd, getConnectionOrCreateByFdMemory w.queue m fd (pointers fd))
    | _ => none
  | .call sys =>
    match w.phase with
    | .handling e _ =>
      some (e.clientFd, e.memory options w.queue sys m (pointers e.clientFd))
    | _ => none
  | _ => none

/-- After the loop of `handleEpoll`, `freeConnection` is called for every slot in use. -/
def shutdownMemory (q : QueueConnectionsType) (pointers : ℕ → Pointers) : List MemoryCall :=
  ((List.range q.currentSize).map q.fd).flatMap fun fd => freeConnectionMemory fd (pointers fd)

/-! ### The thread and its heap -/

/-- A thread with the pointers of the records in its queue, by client, the blocks in use and the calls
made so far. A block is in use for the client whose record it was allocated for. -/
structure ThreadHeap where
  thread : Thread
  running : Bool
  pointers : ℕ → Pointers
  blocks : Table ℕ
  calls : List MemoryCall

def ThreadHeap.init (clock : ℤ) : ThreadHeap := ⟨.init clock, true, fun _ => .null, fun _ => none, []⟩

/-- A step of the thread, with what `malloc` returns, or the end of its loop at the signal. -/
inductive HeapAction where
  | work (a : WorkerAction) (m : Mallocs)
  | shutdown

/-- The calls of a change to the record of a client, if there is one. -/
def changeCalls : Option (ℕ × MemoryChange) → List MemoryCall
  | some (_, _, calls) => calls
  | none => []

/-- The pointers after it. -/
def changePointers (pointers : ℕ → Pointers) : Option (ℕ × MemoryChange) → ℕ → Pointers
  | some (fd, p, _) => Function.update pointers fd p
  | none => pointers

/-- The calls of a step. -/
def ThreadHeap.callsOf (options : Options) (s : ThreadHeap) : HeapAction → List MemoryCall
  | .work a m => changeCalls (s.thread.worker.memory options m s.pointers a)
  | .shutdown => shutdownMemory s.thread.worker.queue s.pointers

def ThreadHeap.next (options : Options) (s : ThreadHeap) (a : HeapAction) : Option ThreadHeap :=
  let calls := s.callsOf options a
  if s.running then
    match a with
    | .work action m =>
      (s.thread.next options action).map fun thread =>
        ⟨thread, true, changePointers s.pointers (s.thread.worker.memory options m s.pointers action),
          after s.blocks calls, s.calls ++ calls⟩
    | .shutdown =>
      -- the thread returns, and its records are gone
      match s.thread.worker.phase with
      | .top => some ⟨s.thread, false, fun _ => .null, after s.blocks calls, s.calls ++ calls⟩
      | _ => none
  else none

/-- One step, as a step relation. -/
abbrev HeapStep (options : Options) (s : ThreadHeap) (a : HeapAction) (s' : ThreadHeap) : Prop :=
  s.next options a = some s'

/-- `malloc` returns addresses that are not in use. -/
def ThreadHeap.MallocsFresh (options : Options) (s : ThreadHeap) (a : HeapAction) : Prop :=
  FreshNumbers s.blocks (s.callsOf options a)

instance (options : Options) (s : ThreadHeap) (a : HeapAction) :
    Decidable (s.MallocsFresh options a) :=
  decidableFreshNumbers s.blocks (s.callsOf options a)

/-! ### The blocks of a record -/

def HeaderPointers.blocks (header : HeaderPointers) : List ℕ := [header.name, header.value, header.node]

/-- The blocks that a record points to, in the order in which `freeConnection` frees them. -/
def Pointers.blocks (p : Pointers) : List ℕ :=
  p.path.toList ++ (p.absolutePath.toList ++ (p.requestBuffer.toList ++
    (p.responseBufferHeaders.toList ++
      (p.requestHeaders.flatMap HeaderPointers.blocks ++ p.requestBody.toList))))

/-- A pointer is `NULL` where it is in the record, and there are as many header nodes. -/
structure Pointers.Mirrors (p : Pointers) (c : QueueConnectionElementType) : Prop where
  path : p.path.isSome = c.path.isSome
  absolutePath : p.absolutePath.isSome = c.absolutePath.isSome
  requestBuffer : p.requestBuffer.isSome = c.requestBuffer.isSome
  responseBufferHeaders : p.responseBufferHeaders.isSome = c.responseBufferHeaders.isSome
  requestHeaders : p.requestHeaders.length = c.requestHeaders.length
  requestBody : p.requestBody.isSome = c.requestBody.isSome

section Blocks

variable {options : Options} {sys : Sys} {m : Mallocs} {fd : ℕ} {p : Pointers}
  {c c' : QueueConnectionElementType}

theorem freeHeaderMemory_eq (fd : ℕ) (requestHeaders : List HeaderPointers) :
    freeHeaderMemory fd requestHeaders =
      (requestHeaders.flatMap HeaderPointers.blocks).map fun address => .release address fd := by
  rw [List.map_flatMap]
  rfl

theorem freeConnectionMemory_eq (fd : ℕ) (p : Pointers) :
    freeConnectionMemory fd p = p.blocks.map fun address => .release address fd := by
  unfold freeConnectionMemory Pointers.blocks freePointer
  rw [freeHeaderMemory_eq]
  simp only [List.map_append]

theorem freeConnectionMemory_managed (fd : ℕ) (p : Pointers) :
    Managed fd p.blocks (freeConnectionMemory fd p) [] [] :=
  freeConnectionMemory_eq fd p ▸ managed_releaseAll fd p.blocks

/-- The block that `absolutePath` held is lost. -/
theorem managed_absolutePath (fd : ℕ) (p : Pointers) (n : ℕ) :
    Managed fd p.blocks [.acquire n fd] { p with absolutePath := some n }.blocks
      p.absolutePath.toList :=
  managed_replace fd p.path.toList _ p.absolutePath n

theorem managed_responseBufferHeaders (fd : ℕ) (p : Pointers) (n : ℕ) :
    Managed fd p.blocks [.acquire n fd] { p with responseBufferHeaders := some n }.blocks
      p.responseBufferHeaders.toList := by
  have := managed_replace fd (p.path.toList ++ (p.absolutePath.toList ++ p.requestBuffer.toList))
    (p.requestHeaders.flatMap HeaderPointers.blocks ++ p.requestBody.toList)
    p.responseBufferHeaders n
  simpa only [Pointers.blocks, Option.toList_some, List.append_assoc, List.cons_append,
    List.nil_append] using this

theorem managed_requestBody (fd : ℕ) (p : Pointers) (n : ℕ) :
    Managed fd p.blocks [.acquire n fd] { p with requestBody := some n }.blocks
      p.requestBody.toList := by
  have := managed_replace fd (p.path.toList ++ (p.absolutePath.toList ++ (p.requestBuffer.toList ++
    (p.responseBufferHeaders.toList ++ p.requestHeaders.flatMap HeaderPointers.blocks)))) []
    p.requestBody n
  simpa only [Pointers.blocks, Option.toList_some, List.append_assoc, List.append_nil] using this

/-- The loop over the header lines keeps the nodes there are, and loses nothing. -/
theorem headersLoopMemory_managed (fd : ℕ) (lines : List HeaderMallocs)
    (headers : List HeaderPointers) :
    Managed fd (headers.flatMap HeaderPointers.blocks) (headersLoopMemory fd lines headers).2
      ((headersLoopMemory fd lines headers).1.flatMap HeaderPointers.blocks) [] := by
  induction lines generalizing headers with
  | nil => exact .done _
  | cons line lines ih =>
    have hnode := ih (⟨line.nameLower, line.value, line.headerNode⟩ :: headers)
    -- the copy of the name goes to the node, and the name itself is freed
    refine .acquired _ (.acquired _ (.acquired _ (.acquired _ (.reordered ?_
      (.released line.name hnode)))))
    rw [List.flatMap_cons]
    simp only [HeaderPointers.blocks, List.cons_append, List.nil_append]
    grind

theorem length_headersLoopMemory (fd : ℕ) (lines : List HeaderMallocs)
    (headers : List HeaderPointers) :
    (headersLoopMemory fd lines headers).1.length = lines.length + headers.length := by
  induction lines generalizing headers with
  | nil => simp [headersLoopMemory]
  | cons line lines ih =>
    simp only [headersLoopMemory, ih, List.length_cons]
    omega

theorem managed_requestHeaders (fd : ℕ) (lines : List HeaderMallocs) (p : Pointers) :
    Managed fd p.blocks (headersLoopMemory fd lines p.requestHeaders).2
      { p with requestHeaders := (headersLoopMemory fd lines p.requestHeaders).1 }.blocks [] := by
  have hperm : ∀ headers : List HeaderPointers, { p with requestHeaders := headers }.blocks.Perm
      (headers.flatMap HeaderPointers.blocks ++ (p.path.toList ++ (p.absolutePath.toList ++
        (p.requestBuffer.toList ++ (p.responseBufferHeaders.toList ++ p.requestBody.toList))))) := by
    intro headers
    unfold Pointers.blocks
    grind
  exact .reordered (hperm p.requestHeaders)
    (((headersLoopMemory_managed fd lines p.requestHeaders).frame _).reorder (hperm _).symm)

/-! ### The functions on the blocks -/

theorem processHeadersMemory_spec (m : Mallocs) (fd : ℕ) (text : Bytes) (firstLineLength : ℕ)
    (hmirrors : p.Mirrors c) :
    ∃ lost, (p.requestBody = none → lost = []) ∧
      Managed fd p.blocks (processHeadersMemory m fd text firstLineLength p).2
        (processHeadersMemory m fd text firstLineLength p).1.blocks lost ∧
      (processHeadersMemory m fd text firstLineLength p).1.Mirrors
        (processHeaders text firstLineLength c) := by
  unfold processHeadersMemory processHeaders
  simp only
  cases strstr crlfcrlf (text.drop (firstLineLength + 2)) with
  | none => exact ⟨[], fun _ => rfl, .done _, hmirrors⟩
  | some endOfHeaders =>
    simp only
    split
    · refine ⟨[], fun _ => rfl, managed_requestHeaders fd _ p, { hmirrors with
        requestHeaders := ?_ }⟩
      simp [length_headersLoopMemory, headersLoop_eq, hmirrors.requestHeaders]
    · refine ⟨p.requestBody.toList ++ [], fun hnone => by rw [hnone]; rfl,
        (managed_requestBody fd p m.requestBody).trans (managed_requestHeaders fd _ _),
        { hmirrors with requestHeaders := ?_, requestBody := rfl }⟩
      simp [length_headersLoopMemory, headersLoop_eq, hmirrors.requestHeaders]

/-- Where `processRequest` assigns `path`. -/
def GetsToPath (sys : Sys) (c : QueueConnectionElementType) : Prop :=
  sys.request.peer ≠ none ∧ strstr crlf (cString (c.requestBuffer.getD [])) ≠ none

theorem processRequestMemory_spec (m : Mallocs) (fd : ℕ) {valid : Bool} (hmirrors : p.Mirrors c)
    (h : processRequest options sys.request c = some (valid, c')) :
    ∃ lost, Managed fd p.blocks (processRequestMemory sys m fd c p).2
        (processRequestMemory sys m fd c p).1.blocks lost ∧
      (processRequestMemory sys m fd c p).1.Mirrors c' ∧
      (p.path = none → p.absolutePath = none → p.requestBody = none → lost = []) ∧
      (p.path ≠ none → (lost = [] ↔ ¬ GetsToPath sys c)) ∧
      (valid = true → c'.path ≠ none ∧ GetsToPath sys c) := by
  unfold processRequest at h
  obtain ⟨buffer, hbuffer, h⟩ := Option.bind_eq_some_iff.mp h
  unfold processRequestMemory GetsToPath
  rw [hbuffer, Option.getD_some]
  simp only at h ⊢
  cases hpeer : sys.request.peer with
  | none =>
    rw [hpeer] at h
    obtain ⟨rfl, rfl⟩ := Prod.mk.inj (Option.some.inj h)
    exact ⟨[], .done _, { hmirrors with }, fun _ _ _ => rfl, fun _ => by simp, by simp⟩
  | some ip =>
    simp only [hpeer] at h
    cases hline : strstr crlf (cString buffer) with
    | none =>
      rw [hline] at h
      obtain ⟨rfl, rfl⟩ := Prod.mk.inj (Option.some.inj h)
      exact ⟨[], .done _, { hmirrors with }, fun _ _ _ => rfl, fun _ => by simp, by simp⟩
    | some firstLineLength =>
      simp only [hline] at h ⊢
      obtain ⟨⟨method, path, protocolVersion⟩, hscan, h⟩ := Option.bind_eq_some_iff.mp h
      simp only [hscan]
      -- the old path is lost
      have hlost : ∀ {lost : List ℕ}, p.path ≠ none →
          (p.path.toList ++ lost = [] ↔ ¬ (some ip ≠ none ∧ some firstLineLength ≠ none)) := by
        intro lost hpath
        obtain ⟨n, hn⟩ := Option.ne_none_iff_exists'.mp hpath
        simp [hn]
      split at h
      · rw [if_pos ‹_›]
        obtain ⟨rfl, rfl⟩ := Prod.mk.inj (Option.some.inj h)
        refine ⟨p.path.toList ++ [], ?_, { hmirrors with path := rfl }, fun hpath _ _ => ?_,
          hlost, by simp⟩
        · rw [List.append_nil]
          exact managed_replace fd [] _ p.path m.path
        · rw [hpath]
          rfl
      · rw [if_neg ‹_›]
        obtain ⟨rfl, rfl⟩ := Prod.mk.inj (Option.some.inj h)
        obtain ⟨lost, hnone, hmanaged, hmirrors'⟩ := processHeadersMemory_spec
          (p := { p with path := some m.path, absolutePath := some m.absolutePath })
          (c := { c with
            scheme := bytes "http", ip := ip, path := some path, method := strToMethod method
            protocolVersion := protocolVersion
            absolutePath := some (absolutePathOf options path) }) m fd (cString buffer)
          firstLineLength { hmirrors with path := rfl, absolutePath := rfl }
        refine ⟨p.path.toList ++ (p.absolutePath.toList ++ lost), ?_, hmirrors', ?_, hlost,
          fun _ => ⟨?_, by simp⟩⟩
        · exact (managed_replace fd [] _ p.path m.path).trans
            ((managed_absolutePath fd { p with path := some m.path } m.absolutePath).trans hmanaged)
        · intro hpath habsolute hbody
          rw [hpath, habsolute, hnone hbody]
          rfl
        · unfold processHeaders
          simp only
          split <;> simp

end Blocks

/-! ### How far a request is -/

/-- The record of a client whose loop goes on: nothing of the request is in it yet, its response has
been made, or a fixed response is sent and the client is to be closed. -/
inductive Filled (pc : Pc) (c : QueueConnectionElementType) : Prop
  | unparsed : c.path = none → c.absolutePath = none → c.requestBody = none →
      c.requestHeaders = [] → c.responseBufferHeaders = none → Filled pc c
  | answered : c.path ≠ none → c.responseBufferHeaders ≠ none →
      strstr crlf (cString (c.requestBuffer.getD [])) ≠ none → c.state ≠ .recv → pc ≠ .recv →
      Filled pc c
  | refused : (∃ buffer leftToWrite, pc = .sendAll buffer leftToWrite) ∨
      pc = .switch ∧ c.state = .doneForClose → Filled pc c

/-- The loop comes to `processRequest` with the response of the request already made, and
`getpeername` answers. -/
def EventLoop.Reparses (q : QueueConnectionsType) (e : EventLoop) (sys : Sys) : Prop :=
  e.pc = .switch ∧ (q.connections e.slot).state = .sendHeaders ∧
    (q.connections e.slot).requestHeaders = [] ∧
    (q.connections e.slot).responseBufferHeaders ≠ none ∧ sys.request.peer ≠ none

/-- The fields that point to the heap are as before. -/
structure SamePointers (c c' : QueueConnectionElementType) : Prop where
  path : c'.path = c.path
  absolutePath : c'.absolutePath = c.absolutePath
  requestBuffer : c'.requestBuffer.isSome = c.requestBuffer.isSome
  responseBufferHeaders : c'.responseBufferHeaders = c.responseBufferHeaders
  requestHeaders : c'.requestHeaders = c.requestHeaders
  requestBody : c'.requestBody = c.requestBody

/-- What a step of the loop of a client does to the blocks of its record, with the blocks lost: the
record is written, renewed, or removed. -/
inductive EventLoop.Rewrites (q : QueueConnectionsType) (e : EventLoop) (sys : Sys) (m : Mallocs)
    (p : Pointers) (change : MemoryChange) : QueueConnectionsType → EventLoop → Prop
  | turned (c : QueueConnectionElementType) (pc : Pc) (effects : List Effect) (lost : List ℕ) :
      pc ≠ .ended → Managed e.clientFd p.blocks change.2 change.1.blocks lost →
      change.1.Mirrors c → Filled pc c → (lost = [] ↔ ¬ e.Reparses q sys) →
      Rewrites q e sys m p change (q.setConnection e.slot c) (e.goto pc effects)
  | updated (q' : QueueConnectionsType) :
      updateQueueConnection q e.clientFd sys.now sys.mem = some q' →
      change = updateQueueConnectionMemory q m e.clientFd p → ¬ e.Reparses q sys →
      Rewrites q e sys m p change q' (e.goto .ended [.logged, .rearmed])
  | dequeued : change = dequeueConnectionByFdMemory q e.clientFd p → ¬ e.Reparses q sys →
      Rewrites q e sys m p change (dequeueConnectionByFd q e.clientFd) (e.goto .ended [.closed])

section Requests

variable {options : Options} {q q' : QueueConnectionsType} {e e' : EventLoop} {sys : Sys}
  {m : Mallocs} {p : Pointers} {pc : Pc} {effects : List Effect}
  {c c' : QueueConnectionElementType}

theorem SamePointers.mirrors (h : SamePointers c c') (hmirrors : p.Mirrors c) : p.Mirrors c' where
  path := h.path ▸ hmirrors.path
  absolutePath := h.absolutePath ▸ hmirrors.absolutePath
  requestBuffer := h.requestBuffer ▸ hmirrors.requestBuffer
  responseBufferHeaders := h.responseBufferHeaders ▸ hmirrors.responseBufferHeaders
  requestHeaders := h.requestHeaders ▸ hmirrors.requestHeaders
  requestBody := h.requestBody ▸ hmirrors.requestBody

theorem filled_freshConnection (fd : ℕ) (now : ℤ) (mem : RequestBlock) :
    Filled pc (freshConnection fd now mem) := .unparsed rfl rfl rfl rfl rfl

theorem SamePointers.unparsed (h : SamePointers c c') (hpath : c.path = none)
    (habsolute : c.absolutePath = none) (hbody : c.requestBody = none)
    (hheaders : c.requestHeaders = []) (hresponse : c.responseBufferHeaders = none) : Filled pc c' :=
  .unparsed (h.path.trans hpath) (h.absolutePath.trans habsolute) (h.requestBody.trans hbody)
    (h.requestHeaders.trans hheaders) (h.responseBufferHeaders.trans hresponse)

theorem not_refusing (hpc : pc = .switch) (hstate : c.state ≠ .doneForClose) :
    ¬ ((∃ buffer leftToWrite, pc = .sendAll buffer leftToWrite) ∨
      pc = .switch ∧ c.state = .doneForClose) := by
  rintro (⟨buffer, leftToWrite, hsend⟩ | ⟨-, hclose⟩)
  · rw [hpc] at hsend
    cases hsend
  · exact hstate hclose

theorem Filled.keep {pc' : Pc} (h : Filled pc c) (hsame : SamePointers c c')
    (hbuffer : c'.requestBuffer = c.requestBuffer) (hstate : c.state ≠ .recv → c'.state ≠ .recv)
    (hpc : pc' ≠ .recv)
    (hclose : (∃ buffer leftToWrite, pc = .sendAll buffer leftToWrite) ∨
      pc = .switch ∧ c.state = .doneForClose → Filled pc' c') : Filled pc' c' := by
  cases h with
  | unparsed hpath habsolute hbody hheaders hresponse =>
    exact hsame.unparsed hpath habsolute hbody hheaders hresponse
  | answered hpath hresponse hline hrecv _ =>
    exact .answered (hsame.path ▸ hpath) (hsame.responseBufferHeaders ▸ hresponse)
      (hbuffer ▸ hline) (hstate hrecv) hpc
  | refused hrefused => exact hclose hrefused

theorem EventLoop.Rewrites.silent (hpc : pc ≠ .ended) (hmirrors : p.Mirrors c) (hfilled : Filled pc c)
    (hreparses : ¬ e.Reparses q sys) :
    e.Rewrites q sys m p (p, []) (q.setConnection e.slot c) (e.goto pc effects) :=
  .turned c pc effects [] hpc (.done _) hmirrors hfilled (iff_of_true rfl hreparses)

theorem finishRequest_requestBuffer {buffer : Bytes} (h : finishRequest c buffer = some c') :
    c'.requestBuffer.isSome := by
  unfold finishRequest at h
  split at h
  · obtain rfl := Option.some.inj h
    rfl
  · cases h

theorem recvRequestTurn_requestBuffer {r : RecvResult} {repeats : Bool}
    (h : recvRequestTurn c r = some (c', repeats)) :
    c.requestBuffer.isSome ∧ c'.requestBuffer.isSome := by
  unfold recvRequestTurn at h
  obtain ⟨buffer, hbuffer, h⟩ := Option.bind_eq_some_iff.mp h
  have hsome : c.requestBuffer.isSome := by rw [hbuffer]; rfl
  refine ⟨hsome, ?_⟩
  cases r with
  | eintr =>
    obtain ⟨rfl, rfl⟩ := Prod.mk.inj (Option.some.inj h)
    exact hsome
  | eagain =>
    obtain ⟨complete, -, h⟩ := Option.bind_eq_some_iff.mp h
    cases complete with
    | true =>
      obtain ⟨c₁, hfinish, h⟩ := Option.bind_eq_some_iff.mp h
      obtain ⟨rfl, rfl⟩ := Prod.mk.inj (Option.some.inj h)
      exact finishRequest_requestBuffer hfinish
    | false =>
      obtain ⟨rfl, rfl⟩ := Prod.mk.inj (Option.some.inj h)
      exact hsome
  | error =>
    obtain ⟨rfl, rfl⟩ := Prod.mk.inj (Option.some.inj h)
    exact hsome
  | data bytes =>
    simp only at h
    split at h
    · obtain ⟨rfl, rfl⟩ := Prod.mk.inj (Option.some.inj h)
      exact hsome
    · obtain ⟨complete, -, h⟩ := Option.bind_eq_some_iff.mp h
      cases complete with
      | true =>
        obtain ⟨c₁, hfinish, h⟩ := Option.bind_eq_some_iff.mp h
        obtain ⟨rfl, rfl⟩ := Prod.mk.inj (Option.some.inj h)
        exact finishRequest_requestBuffer hfinish
      | false =>
        obtain ⟨rfl, rfl⟩ := Prod.mk.inj (Option.some.inj h)
        rfl

theorem recvRequestTurn_samePointers {r : RecvResult} {repeats : Bool}
    (h : recvRequestTurn c r = some (c', repeats)) : SamePointers c c' := by
  obtain ⟨hbefore, hafter⟩ := recvRequestTurn_requestBuffer h
  obtain ⟨buffer, offset, state, -, rfl⟩ := recvRequestTurn_inv h
  exact ⟨rfl, rfl, hafter.trans hbefore.symm, rfl, rfl, rfl⟩

theorem makeResponse_pointers {env : ResponseEnv} {disk : Disk} {built : Built}
    (h : makeResponse options env disk c = some built) :
    SamePointers c { built.connection with responseBufferHeaders := c.responseBufferHeaders } ∧
      built.connection.responseBufferHeaders ≠ none ∧
      built.connection.requestBuffer = c.requestBuffer ∧ built.connection.state = c.state := by
  obtain ⟨-, -, file, code, size, -, -, -, printed, ⟨encoded, body, disk'⟩, -, -, hsize, -, hencoded,
    -, -, -, rfl⟩ := makeResponse_inv h
  obtain ⟨fd, size, encoding, -, hc⟩ := encodeBody_inv hsize rfl hencoded
  simp only at hc
  subst hc
  exact ⟨⟨rfl, rfl, rfl, rfl, rfl, rfl⟩, Option.some_ne_none _, rfl, rfl⟩

/-- `makeResponse` or a response that is there. `lost` are the blocks lost on the way. -/
theorem respond_rewrites (parsed : MemoryChange) {lost : List ℕ}
    (hmanaged : Managed e.clientFd p.blocks parsed.2 parsed.1.blocks lost)
    (hmirrors : parsed.1.Mirrors c) (hpath : c.path ≠ none) (hstate : c.state = .sendHeaders)
    (hline : strstr crlf (cString (c.requestBuffer.getD [])) ≠ none)
    (hlost : lost = [] ↔ ¬ e.Reparses q sys) (h : e.respond options q sys c = some (q', e')) :
    e.Rewrites q sys m p ((respondMemory m e.clientFd c parsed.1).1,
      parsed.2 ++ (respondMemory m e.clientFd c parsed.1).2) q' e' := by
  unfold EventLoop.respond at h
  unfold respondMemory
  split at h
  · rename_i hnone
    rw [if_pos hnone]
    obtain ⟨built, hbuilt, h⟩ := Option.map_eq_some_iff.mp h
    obtain ⟨rfl, rfl⟩ := Prod.mk.inj h
    obtain ⟨hsame, hresponse, hbuffer, hstate'⟩ := makeResponse_pointers hbuilt
    have hpointer : parsed.1.responseBufferHeaders = none := by
      have := hmirrors.responseBufferHeaders
      rw [hnone] at this
      exact Option.isSome_eq_false_iff.mp this |> Option.isNone_iff_eq_none.mp
    refine .turned built.connection .sendHeaders [] (lost ++ []) (by simp) ?_ ?_ ?_ ?_
    · have hmade := managed_responseBufferHeaders e.clientFd parsed.1 m.responseBufferHeaders
      rw [hpointer] at hmade
      exact hmanaged.trans hmade
    · have hkept := hsame.mirrors hmirrors
      exact { hkept with
        responseBufferHeaders := (Option.isSome_iff_ne_none.mpr hresponse).symm }
    · refine .answered (hsame.path ▸ hpath) hresponse (hbuffer ▸ hline) ?_ (by simp)
      rw [hstate', hstate]
      simp
    · rw [List.append_nil]
      exact hlost
  · rename_i hresponse
    rw [if_neg hresponse, List.append_nil]
    obtain ⟨rfl, rfl⟩ := Prod.mk.inj (Option.some.inj h)
    refine .turned c .sendHeaders [] lost (by simp) hmanaged hmirrors ?_ hlost
    exact .answered hpath hresponse hline (by rw [hstate]; simp) (by simp)

theorem answer_rewrites {parsed : MemoryChange} {lost : List ℕ} {buffer : Bytes}
    (hmanaged : Managed e.clientFd p.blocks parsed.2 parsed.1.blocks lost)
    (hmirrors : parsed.1.Mirrors c) (hlost : lost = [] ↔ ¬ e.Reparses q sys)
    (h : e.answer q c buffer = (q', e')) : e.Rewrites q sys m p parsed q' e' := by
  obtain ⟨rfl, rfl⟩ := Prod.mk.inj h
  exact .turned c _ [] lost (by simp) hmanaged hmirrors (.refused (Or.inl ⟨_, _, rfl⟩)) hlost

theorem sendHeadersCase_rewrites (hpc : e.pc = .switch)
    (hstate : (q.connections e.slot).state = .sendHeaders)
    (hfilled : Filled e.pc (q.connections e.slot)) (hmirrors : p.Mirrors (q.connections e.slot))
    (h : e.sendHeadersCase options q sys (q.connections e.slot) = some (q', e')) :
    e.Rewrites q sys m p
      (sendHeadersCaseMemory options sys m e.clientFd (q.connections e.slot) p) q' e' := by
  unfold EventLoop.sendHeadersCase at h
  unfold sendHeadersCaseMemory
  split at h
  · rename_i hheaders
    rw [if_pos hheaders]
    obtain ⟨⟨valid, c⟩, hparse, h⟩ := Option.bind_eq_some_iff.mp h
    obtain ⟨lost, hmanaged, hmirrors', hnone, hagain, hvalid⟩ :=
      processRequestMemory_spec m e.clientFd hmirrors hparse
    -- a request that is parsed for the first time loses nothing
    have hlost : lost = [] ↔ ¬ e.Reparses q sys := by
      unfold EventLoop.Reparses
      cases hfilled with
      | unparsed hpath habsolute hbody _ hresponse =>
        have hnull : ∀ {pointer : Option ℕ} {field : Option Bytes}, pointer.isSome = field.isSome →
            field = none → pointer = none := by
          intro pointer field hsome hfield
          rw [hfield] at hsome
          exact Option.isNone_iff_eq_none.mp (Option.isSome_eq_false_iff.mp hsome)
        refine iff_of_true (hnone (hnull hmirrors.path hpath)
          (hnull hmirrors.absolutePath habsolute) (hnull hmirrors.requestBody hbody)) ?_
        rintro ⟨-, -, -, hmade, -⟩
        exact hmade hresponse
      | answered hpath hresponse hline _ _ =>
        have hpointer : p.path ≠ none := by
          rw [← Option.isSome_iff_ne_none, hmirrors.path, Option.isSome_iff_ne_none]
          exact hpath
        rw [hagain hpointer]
        unfold GetsToPath
        simp [hpc, hstate, hheaders, hresponse, hline]
      | refused hrefused => exact absurd hrefused (not_refusing hpc (by simp [hstate]))
    have hstate' : c.state = .sendHeaders := (processRequest_keeps hparse).2.trans hstate
    simp only [hparse]
    simp only at h
    split at h
    · rw [if_pos ‹_›]
      exact answer_rewrites hmanaged hmirrors' hlost (Option.some.inj h)
    · rename_i hisValid
      rw [if_neg hisValid]
      split at h
      · rw [if_pos ‹_›]
        exact answer_rewrites hmanaged hmirrors' hlost (Option.some.inj h)
      · rw [if_neg ‹_›]
        split at h
        · rw [if_pos ‹_›]
          exact answer_rewrites hmanaged hmirrors' hlost (Option.some.inj h)
        · rw [if_neg ‹_›]
          obtain ⟨hpath, -, hline⟩ := hvalid (by simpa using hisValid)
          refine respond_rewrites _ hmanaged hmirrors' hpath hstate' ?_ hlost h
          obtain ⟨_, _, _, _, _, _, _, _, hc⟩ := processRequest_inv hparse
          rw [hc]
          exact hline
  · rename_i hheaders
    rw [if_neg hheaders]
    cases hfilled with
    | unparsed _ _ _ hnone _ => exact absurd hnone hheaders
    | answered hpath hresponse hline _ _ =>
      exact respond_rewrites (p, []) (.done _) hmirrors hpath hstate hline
        (iff_of_true rfl fun hreparses => hheaders hreparses.2.2.1) h
    | refused hrefused => exact absurd hrefused (not_refusing hpc (by simp [hstate]))

theorem EventLoop.not_reparses (h : e.pc ≠ .switch ∨ (q.connections e.slot).state ≠ .sendHeaders) :
    ¬ e.Reparses q sys := by
  rintro ⟨hpc, hstate, -⟩
  rcases h with h | h
  · exact h hpc
  · exact h hstate

theorem logAndClose_rewrites (hmirrors : p.Mirrors c) (hreparses : ¬ e.Reparses q sys)
    (h : e.logAndClose q c = (q', e')) : e.Rewrites q sys m p (p, []) q' e' := by
  obtain ⟨rfl, rfl⟩ := Prod.mk.inj h
  exact .silent (by simp) { hmirrors with } (.refused (Or.inr ⟨rfl, rfl⟩)) hreparses

theorem EventLoop.switch_rewrites (hpc : e.pc = .switch) (hexists : existsConnection q e.clientFd)
    (hfilled : Filled e.pc (q.connections e.slot)) (hmirrors : p.Mirrors (q.connections e.slot))
    (h : e.step options q sys = some (q', e')) :
    e.Rewrites q sys m p (e.memory options q sys m p) q' e' := by
  unfold EventLoop.memory
  simp only [hpc]
  -- the states in which nothing becomes of the request
  have hkeep : ∀ {c : QueueConnectionElementType} {pc : Pc} {effects : List Effect},
      (q.connections e.slot).state ≠ .sendHeaders → (q.connections e.slot).state ≠ .doneForClose →
      SamePointers (q.connections e.slot) c →
      c.requestBuffer = (q.connections e.slot).requestBuffer →
      ((q.connections e.slot).state ≠ .recv → c.state ≠ .recv) → pc ≠ .recv → pc ≠ .ended →
      e.Rewrites q sys m p (p, []) (q.setConnection e.slot c) (e.goto pc effects) :=
    fun hsend hclose hsame hbuffer hstate hpc' hended =>
      .silent hended (hsame.mirrors hmirrors) (hfilled.keep hsame hbuffer hstate hpc' fun hrefused =>
        absurd hrefused (not_refusing hpc hclose)) (EventLoop.not_reparses (Or.inr hsend))
  cases hstate : (q.connections e.slot).state with
  | recv =>
    rw [EventLoop.step_switch_recv hpc hstate] at h
    obtain ⟨rfl, rfl⟩ := Prod.mk.inj (Option.some.inj h)
    refine .silent (by simp) hmirrors ?_ (EventLoop.not_reparses (Or.inr (by simp [hstate])))
    cases hfilled with
    | unparsed hpath habsolute hbody hheaders hresponse =>
      exact .unparsed hpath habsolute hbody hheaders hresponse
    | answered _ _ _ hrecv _ => exact absurd hstate hrecv
    | refused hrefused => exact absurd hrefused (not_refusing hpc (by simp [hstate]))
  | sendHeaders =>
    rw [EventLoop.step_switch_sendHeaders hpc hstate] at h
    exact sendHeadersCase_rewrites hpc hstate hfilled hmirrors h
  | sendBody =>
    by_cases hbody : (q.connections e.slot).bodyFd = -1
    · rw [EventLoop.step_switch_noBody hpc hstate hbody] at h
      obtain ⟨rfl, rfl⟩ := Prod.mk.inj (Option.some.inj h)
      exact hkeep (by simp [hstate]) (by simp [hstate]) ⟨rfl, rfl, rfl, rfl, rfl, rfl⟩ rfl
        (by simp) (by simp) (by simp)
    · rw [EventLoop.step_switch_sendBody hpc hstate hbody] at h
      obtain ⟨rfl, rfl⟩ := Prod.mk.inj (Option.some.inj h)
      exact hkeep (by simp [hstate]) (by simp [hstate]) ⟨rfl, rfl, rfl, rfl, rfl, rfl⟩ rfl
        id (by simp) (by simp)
  | done =>
    have hreparses : ¬ e.Reparses q sys := EventLoop.not_reparses (Or.inr (by simp [hstate]))
    rw [EventLoop.step_switch_done hpc hstate] at h
    simp only
    rcases EventLoop.doneCase_cases h with ⟨hkeepAlive, -, hupdate, rfl⟩ | ⟨-, hgone, -⟩ |
      ⟨hkeepAlive, heq⟩
    · rw [if_pos ⟨hkeepAlive, hexists⟩]
      exact .updated q' hupdate rfl hreparses
    · exact absurd hexists hgone
    · rw [if_neg fun hboth => hkeepAlive hboth.1]
      exact logAndClose_rewrites hmirrors hreparses heq.symm
  | doneForClose =>
    have hreparses : ¬ e.Reparses q sys := EventLoop.not_reparses (Or.inr (by simp [hstate]))
    rw [EventLoop.step_switch_doneForClose hpc hstate] at h
    rcases EventLoop.closeCase_cases (Option.some.inj h) with ⟨-, rfl, rfl⟩ | ⟨hgone, -⟩
    · simp only
      rw [if_pos hexists]
      exact .dequeued rfl hreparses
    · exact absurd hexists hgone

/-- **What a step of the loop of a client does to the blocks of its record.** -/
theorem EventLoop.step_rewrites (hexists : existsConnection q e.clientFd)
    (hfilled : Filled e.pc (q.connections e.slot)) (hmirrors : p.Mirrors (q.connections e.slot))
    (h : e.step options q sys = some (q', e')) :
    e.Rewrites q sys m p (e.memory options q sys m p) q' e' := by
  by_cases hswitch : e.pc = .switch
  · exact EventLoop.switch_rewrites hswitch hexists hfilled hmirrors h
  · have hreparses : ¬ e.Reparses q sys := EventLoop.not_reparses (Or.inl hswitch)
    have hmemory : e.memory options q sys m p = (p, []) := by
      unfold EventLoop.memory
      cases hpc : e.pc <;> simp only
      exact absurd hpc hswitch
    rw [hmemory]
    -- a turn of a loop that sends
    have hkeep : ∀ {c : QueueConnectionElementType} {pc : Pc} {effects : List Effect},
        (∀ buffer leftToWrite, e.pc ≠ .sendAll buffer leftToWrite) →
        SamePointers (q.connections e.slot) c →
        c.requestBuffer = (q.connections e.slot).requestBuffer →
        ((q.connections e.slot).state ≠ .recv → c.state ≠ .recv) → pc ≠ .recv → pc ≠ .ended →
        e.Rewrites q sys m p (p, []) (q.setConnection e.slot c) (e.goto pc effects) := by
      intro c pc effects hsend hsame hbuffer hstate hpc hended
      refine .silent hended (hsame.mirrors hmirrors) (hfilled.keep hsame hbuffer hstate hpc ?_)
        hreparses
      rintro (⟨buffer, leftToWrite, hpc'⟩ | ⟨hpc', -⟩)
      · exact absurd hpc' (hsend buffer leftToWrite)
      · exact absurd hpc' hswitch
    cases hpc : e.pc with
    | «switch» => exact absurd hpc hswitch
    | recv =>
      rw [EventLoop.step_recv hpc] at h
      obtain ⟨⟨c, repeats⟩, hturn, h⟩ := Option.map_eq_some_iff.mp h
      obtain ⟨rfl, rfl⟩ := Prod.mk.inj h
      have hsame := recvRequestTurn_samePointers hturn
      refine .silent (by split <;> simp) (hsame.mirrors hmirrors) ?_ hreparses
      cases hfilled with
      | unparsed hpath habsolute hbody hheaders hresponse =>
        exact hsame.unparsed hpath habsolute hbody hheaders hresponse
      | answered _ _ _ _ hrecv => exact absurd hpc hrecv
      | refused hrefused =>
        rcases hrefused with ⟨buffer, leftToWrite, hpc'⟩ | ⟨hpc', -⟩
        · rw [hpc] at hpc'
          cases hpc'
        · exact absurd hpc' hswitch
    | sendHeaders =>
      rw [EventLoop.step_sendHeaders hpc] at h
      obtain ⟨turn, hturn, h⟩ := Option.map_eq_some_iff.mp h
      obtain ⟨rfl, rfl⟩ := Prod.mk.inj h
      obtain ⟨headers, -, hturned⟩ := sendResponseHeadersTurn_cases hturn
      generalize sys.send = r at hturned
      refine hkeep (by simp [hpc]) ?_ ?_ ?_ (by split <;> simp) (by split <;> simp)
      · cases hturned <;> exact ⟨rfl, rfl, rfl, rfl, rfl, rfl⟩
      · cases hturned <;> rfl
      · cases hturned <;> simp
    | sendBody =>
      rw [EventLoop.step_sendBody hpc] at h
      obtain ⟨rfl, rfl⟩ := Prod.mk.inj (Option.some.inj h)
      obtain ⟨offset, fd, state, hstate, hc⟩ :=
        sendResponseFileTurn_inv (q.connections e.slot) sys.bodyFile sys.send
      refine hkeep (by simp [hpc]) ?_ ?_ ?_ (by split <;> simp) (by split <;> simp)
      · rw [hc]
        exact ⟨rfl, rfl, rfl, rfl, rfl, rfl⟩
      · rw [hc]
      · rw [hc]
        rcases hstate with rfl | rfl | rfl <;> simp
    | sendAll buffer leftToWrite =>
      unfold EventLoop.step at h
      simp only [hpc] at h
      split at h
      · exact logAndClose_rewrites hmirrors hreparses (Option.some.inj h)
      · split at h
        · obtain ⟨rfl, rfl⟩ := Prod.mk.inj (Option.some.inj h)
          exact .silent (by simp) hmirrors (.refused (Or.inl ⟨_, _, rfl⟩)) hreparses
        · exact logAndClose_rewrites hmirrors hreparses (Option.some.inj h)
    | ended =>
      rw [EventLoop.step_of_ended hpc] at h
      cases h

end Requests

/-! ### The thread -/

/-- The pointers that go with a record, and `NULL` without one. -/
def Pointers.MirrorsRecord (p : Pointers) : Option QueueConnectionElementType → Prop
  | none => p = .null
  | some c => p.Mirrors c

/-- A step of the thread that parses a request again. -/
def Worker.Reparses (w : Worker) : WorkerAction → Prop
  | .call sys => ∃ e ∈ w.phase.loop, e.Reparses w.queue sys
  | _ => False

/-- The blocks in use for a client are those that its record points to and those lost. -/
structure HeapHeld (blocks : Table ℕ) (w : Worker) (pointers : ℕ → Pointers) (lost : ℕ → List ℕ) :
    Prop where
  accounts : ∀ fd, Accounts blocks fd (pointers fd).blocks (lost fd)
  records : ∀ fd, (pointers fd).MirrorsRecord (getConnectionByFd w.queue fd)
  filled : ∀ e ∈ w.phase.loop, e.pc ≠ .ended → Filled e.pc (w.queue.connections e.slot)

/-- The change of a step to the record of a client: `r` is the record then, `lost` are the blocks
lost. -/
structure Remembered (w : Worker) (pointers : ℕ → Pointers) (a : WorkerAction) (w' : Worker) (fd : ℕ)
    (change : MemoryChange) (lost : List ℕ) (r : Option QueueConnectionElementType) : Prop where
  managed : Managed fd (pointers fd).blocks change.2 change.1.blocks lost
  map : getConnectionByFd w'.queue = Function.update (getConnectionByFd w.queue) fd r
  record : change.1.MirrorsRecord r
  filled : ∀ e ∈ w'.phase.loop, e.pc ≠ .ended → Filled e.pc (w'.queue.connections e.slot)
  lost : lost = [] ↔ ¬ w.Reparses a

/-- What a step does to the heap. -/
inductive Worker.Remembers (w : Worker) (pointers : ℕ → Pointers) (a : WorkerAction) (w' : Worker) :
    Option (ℕ × MemoryChange) → Prop
  | silent : getConnectionByFd w'.queue = getConnectionByFd w.queue → w'.phase.loop = none →
      ¬ w.Reparses a → Remembers w pointers a w' none
  | changed {fd : ℕ} {change : MemoryChange} {lost : List ℕ}
      {r : Option QueueConnectionElementType} : Remembered w pointers a w' fd change lost r →
      Remembers w pointers a w' (some (fd, change))

section Thread

variable {options : Options} {clock : ℤ} {w w' : Worker} {a : WorkerAction}
  {effects : List (ℕ × Effect)} {pointers : ℕ → Pointers} {m : Mallocs}
  {lost : ℕ → List ℕ} {blocks : Table ℕ} {q : QueueConnectionsType} {fd : ℕ} {p : Pointers}
  {c : QueueConnectionElementType}

theorem dequeueConnectionByFdMemory_eq (he : q.IndexExact) (hexists : existsConnection q fd) :
    dequeueConnectionByFdMemory q fd p = (.null, freeConnectionMemory fd p) := by
  obtain ⟨index, hi⟩ := Option.isSome_iff_exists.mp hexists
  unfold dequeueConnectionByFdMemory
  rw [if_neg (Nat.ne_zero_of_lt (he.name_pos _ _ hi).1), hi]

theorem updateQueueConnectionMemory_eq (hexists : existsConnection q fd) :
    updateQueueConnectionMemory q m fd p =
      (freshPointers m, freeConnectionMemory fd p ++ [.acquire m.requestBuffer fd]) := by
  obtain ⟨index, hi⟩ := Option.isSome_iff_exists.mp hexists
  unfold updateQueueConnectionMemory
  rw [hi]

theorem freshPointers_mirrors (m : Mallocs) (fd : ℕ) (now : ℤ) (mem : RequestBlock) :
    (freshPointers m).Mirrors (freshConnection fd now mem) := ⟨rfl, rfl, rfl, rfl, rfl, rfl⟩

theorem fresh_managed (m : Mallocs) (fd : ℕ) (p : Pointers) :
    Managed fd p.blocks (freeConnectionMemory fd p ++ [.acquire m.requestBuffer fd])
      (freshPointers m).blocks [] :=
  (freeConnectionMemory_managed fd p).trans (.acquired _ (.done _))

theorem Pristine.filled {pc : Pc} (h : Pristine c) : Filled pc c := by
  obtain ⟨mem, hc⟩ := h
  rw [hc]
  exact filled_freshConnection _ _ _

theorem Worker.call_remembers {e e' : EventLoop} {events : List Event} {sys : Sys}
    {queue : QueueConnectionsType} (hs : w.Sound clock) (hheld : HeapHeld blocks w pointers lost)
    (hle : clock ≤ sys.now) (hp : w.phase = .handling e events)
    (h : e.step options w.queue sys = some (queue, e')) :
    w.Remembers pointers (.call sys) ⟨queue, .handling e' events⟩
      (w.memory options m pointers (.call sys)) := by
  have hloop : w.phase.loop = some e := by rw [hp]; rfl
  have hpc := EventLoop.step_ended h
  have hi := hs.slot e hloop hpc
  have hexists : existsConnection w.queue e.clientFd := by
    unfold existsConnection
    rw [hi]
    rfl
  have hrecord := hheld.records e.clientFd
  rw [hs.record hloop hpc] at hrecord
  have hmemory : w.memory options m pointers (.call sys) =
      some (e.clientFd, e.memory options w.queue sys m (pointers e.clientFd)) := by
    unfold Worker.memory
    rw [hp]
  have hreparses : w.Reparses (.call sys) ↔ e.Reparses w.queue sys := by
    unfold Worker.Reparses
    rw [hloop]
    simp
  rw [hmemory]
  have hrewrites := EventLoop.step_rewrites (m := m) hexists (hheld.filled e hloop hpc) hrecord h
  generalize e.memory options w.queue sys m (pointers e.clientFd) = change at hrewrites
  cases hrewrites with
  | turned c pc effects lost hne hmanaged hmirrors hfilled hlost =>
    refine .changed ⟨hmanaged, setConnection_map hs.timed.exact hi, hmirrors, fun e₁ he₁ _ => ?_,
      hlost.trans (not_congr hreparses).symm⟩
    obtain rfl := Option.some.inj he₁
    have hslot : (w.queue.setConnection e.slot c).connections e.slot = c := by simp [setConnection]
    show Filled pc ((w.queue.setConnection e.slot c).connections e.slot)
    rw [hslot]
    exact hfilled
  | updated q' hupdate hchange hnot =>
    obtain ⟨q'', hq'', -, -, hmap⟩ := updateQueueConnection_spec sys.mem hs.timed.exact
      hs.timed.sized hi (hs.timed.not_updateTurns hle)
    obtain rfl := Option.some.inj (hupdate.symm.trans hq'')
    rw [hchange, updateQueueConnectionMemory_eq hexists]
    refine .changed ⟨fresh_managed m e.clientFd _, hmap, freshPointers_mirrors m _ _ _,
      fun e₁ he₁ hne => ?_, iff_of_true rfl fun hagain => hnot (hreparses.mp hagain)⟩
    obtain rfl := Option.some.inj he₁
    exact absurd rfl hne
  | dequeued hchange hnot =>
    obtain ⟨-, -, hmap⟩ :=
      dequeueConnectionByFd_spec hs.timed.exact hs.timed.sized e.clientFd
    rw [hchange, dequeueConnectionByFdMemory_eq hs.timed.exact hexists]
    refine .changed ⟨freeConnectionMemory_managed e.clientFd _, hmap, rfl, fun e₁ he₁ hne => ?_,
      iff_of_true rfl fun hagain => hnot (hreparses.mp hagain)⟩
    obtain rfl := Option.some.inj he₁
    exact absurd rfl hne

theorem Worker.client_remembers {now : ℤ} {mem : RequestBlock} {slot : ℕ} {events : List Event}
    {queue : QueueConnectionsType} (hs : w.Sound clock) (hheld : HeapHeld blocks w pointers lost)
    (hpristine : PristineBut (getConnectionByFd w.queue) none) (hle : clock ≤ now)
    (hp : w.phase = .processing (.client fd true :: events))
    (hget : getConnectionOrCreateByFd w.queue fd now mem = some (queue, slot)) :
    w.Remembers pointers (.nextEvent now mem) ⟨queue, .handling (.start fd slot) events⟩
      (w.memory options m pointers (.nextEvent now mem)) := by
  have hfd : ClientFd fd := by
    refine ⟨Nat.pos_of_ne_zero (hs.events (.client fd true) ?_ fd rfl),
      getConnectionOrCreateByFd_inIndexQueue hget⟩
    rw [hp]
    exact List.mem_cons_self
  obtain ⟨q', index, hq', -, -, hslot, hmap⟩ :=
    hs.timed.getConnectionOrCreateByFd hle hfd mem
  obtain ⟨rfl, rfl⟩ := Prod.mk.inj (Option.some.inj (hget.symm.trans hq'))
  have hmemory : w.memory options m pointers (.nextEvent now mem) =
      some (fd, getConnectionOrCreateByFdMemory w.queue m fd (pointers fd)) := by
    unfold Worker.memory
    rw [hp]
  have hrecord := hheld.records fd
  have hfilled : ∀ e ∈ Phase.loop (.handling (.start fd slot) events), e.pc ≠ .ended →
      Filled e.pc (queue.connections e.slot) := by
    intro e he _
    obtain rfl := Option.some.inj he
    show Filled _ (queue.connections slot)
    rw [hslot]
    cases hc : getConnectionByFd w.queue fd with
    | none => exact filled_freshConnection _ _ _
    | some c => exact (hpristine fd c (by simp) hc).filled
  rw [hmemory]
  unfold getConnectionOrCreateByFdMemory
  cases hi : w.queue.indexQueue fd with
  | none =>
    have hnone := getConnectionByFd_eq_none.mpr hi
    rw [hnone] at hrecord hmap
    have hnull : pointers fd = .null := hrecord
    refine .changed ⟨?_, hmap, freshPointers_mirrors m fd now mem, hfilled, iff_of_true rfl id⟩
    rw [hnull]
    exact .acquired _ (.done _)
  | some index =>
    have hc : getConnectionByFd w.queue fd = some (w.queue.connections index) := by
      unfold getConnectionByFd
      rw [hi]
      rfl
    rw [hc] at hrecord hmap
    exact .changed ⟨.done _, hmap, hrecord, hfilled, iff_of_true rfl id⟩

/-- **What a step of the thread does to the heap.** -/
theorem Worker.step_remembers (hs : w.Sound clock) (hheld : HeapHeld blocks w pointers lost)
    (hpristine : w.phase.loop = none → PristineBut (getConnectionByFd w.queue) none)
    (htimely : a.Timely clock) (hstep : w.step options a = some (w', effects)) :
    w.Remembers pointers a w' (w.memory options m pointers a) := by
  cases Worker.step_cases hstep with
  | readTime now hp => exact .silent rfl rfl id
  | sweepClose now fd hp hexpired hexists =>
    have hmemory : w.memory options m pointers .sweep =
        some (fd, dequeueConnectionByFdMemory w.queue fd (pointers fd)) := by
      unfold Worker.memory
      simp only [hp, hexpired]
      exact if_pos hexists
    rw [hmemory, dequeueConnectionByFdMemory_eq hs.timed.exact hexists]
    obtain ⟨-, -, hmap⟩ := dequeueConnectionByFd_spec hs.timed.exact hs.timed.sized fd
    refine .changed ⟨freeConnectionMemory_managed fd _, hmap, rfl, fun e he => ?_,
      iff_of_true rfl id⟩
    have hloop : w.phase.loop = some e := he
    rw [hp] at hloop
    cases hloop
  | sweepStuck now fd hp hexpired hexists =>
    have hmemory : w.memory options m pointers .sweep = none := by
      unfold Worker.memory
      simp only [hp, hexpired]
      exact if_neg hexists
    rw [hmemory]
    exact .silent rfl (by rw [hp]; rfl) id
  | sweepEnd now hp hexpired =>
    have hmemory : w.memory options m pointers .sweep = none := by
      unfold Worker.memory
      simp only [hp, hexpired]
    rw [hmemory]
    exact .silent rfl rfl id
  | epollWait events hp hlen => exact .silent rfl rfl id
  | batchEnd now mem hp | server now mem events hp | skipped now mem fd events hp =>
    have hmemory : w.memory options m pointers (.nextEvent now mem) = none := by
      unfold Worker.memory
      simp only [hp]
    rw [hmemory]
    exact .silent rfl rfl id
  | client now mem fd events queue slot hp hget =>
    exact Worker.client_remembers hs hheld (hpristine (by rw [hp]; rfl)) htimely.1 hp hget
  | accept fd events hp => exact .silent rfl (by rw [hp]; rfl) id
  | acceptEnd events hp => exact .silent rfl rfl id
  | call sys e e' events queue hp hcall => exact Worker.call_remembers hs hheld htimely.1 hp hcall
  | endEvent e events hp hended => exact .silent rfl rfl id

/-- With fresh blocks, the calls of a step are legal, and it loses a block when it parses a request
again. -/
theorem HeapHeld.remembers {memory : Option (ℕ × MemoryChange)}
    (hheld : HeapHeld blocks w pointers lost) (h : w.Remembers pointers a w' memory)
    (hfresh : FreshNumbers blocks (changeCalls memory)) :
    Legal blocks (changeCalls memory) ∧ ∃ lost',
      HeapHeld (after blocks (changeCalls memory)) w' (changePointers pointers memory) lost' ∧
        ((∃ fd, lost' fd ≠ []) ↔ (∃ fd, lost fd ≠ []) ∨ w.Reparses a) := by
  cases h with
  | silent hmap hloop hnot =>
    refine ⟨trivial, lost, ⟨hheld.accounts, fun fd => hmap ▸ hheld.records fd, fun e he => ?_⟩,
      (or_iff_left hnot).symm⟩
    rw [hloop] at he
    cases he
  | @changed fd change new r hchanged =>
    obtain ⟨hlegal, haccounts⟩ := hchanged.managed.accounts hfresh (hheld.accounts fd)
    refine ⟨hlegal, Function.update lost fd (new ++ lost fd), ⟨fun x => ?_, fun x => ?_,
      hchanged.filled⟩, ?_⟩
    · show Accounts _ x (Function.update pointers fd change.1 x).blocks _
      by_cases hx : x = fd
      · rw [hx, Function.update_self, Function.update_self]
        exact haccounts
      · rw [Function.update_of_ne hx, Function.update_of_ne hx]
        exact (hheld.accounts x).of_kind_ne hlegal fun call hcall =>
          hchanged.managed.kind call hcall ▸ Ne.symm hx
    · show (Function.update pointers fd change.1 x).MirrorsRecord _
      rw [hchanged.map]
      by_cases hx : x = fd
      · rw [hx, Function.update_self, Function.update_self]
        exact hchanged.record
      · rw [Function.update_of_ne hx, Function.update_of_ne hx]
        exact hheld.records x
    · have hnew : new ≠ [] ↔ w.Reparses a := by rw [ne_eq, hchanged.lost, not_not]
      rw [← hnew]
      constructor
      · rintro ⟨x, hx⟩
        by_cases hfd : x = fd
        · rw [hfd, Function.update_self] at hx
          by_cases hnone : new = []
          · rw [hnone] at hx
            exact Or.inl ⟨fd, hx⟩
          · exact Or.inr hnone
        · rw [Function.update_of_ne hfd] at hx
          exact Or.inl ⟨x, hx⟩
      · rintro (⟨x, hx⟩ | hlost)
        · refine ⟨x, ?_⟩
          by_cases hfd : x = fd
          · rw [hfd, Function.update_self]
            exact List.append_ne_nil_of_right_ne_nil _ (hfd ▸ hx)
          · rw [Function.update_of_ne hfd]
            exact hx
        · exact ⟨fd, by
            rw [Function.update_self]
            exact List.append_ne_nil_of_left_ne_nil hlost _⟩

theorem HeapHeld.legal_prefix {memory : Option (ℕ × MemoryChange)} {made : List MemoryCall}
    (hheld : HeapHeld blocks w pointers lost) (h : w.Remembers pointers a w' memory)
    (hmade : made <+: changeCalls memory) (hfresh : FreshNumbers blocks made) :
    Legal blocks made := by
  cases h with
  | silent hmap hloop hnot =>
    obtain rfl := List.prefix_nil.mp hmade
    trivial
  | @changed fd change new r hchanged =>
    exact hchanged.managed.legal_prefix hmade hfresh (hheld.accounts fd)

end Thread

/-! ### The shutdown -/

section Shutdown

variable {blocks : Table ℕ} {pointers : ℕ → Pointers} {lost : ℕ → List ℕ} {q : QueueConnectionsType}
  {fd : ℕ}

theorem freshNumbers_releases {t : Table ℕ} (numbers : List ℕ) (k : ℕ) :
    FreshNumbers t (numbers.map fun n => .release n k) := by
  induction numbers generalizing t with
  | nil => trivial
  | cons n numbers ih => exact ⟨trivial, ih⟩

/-- Freeing the records of different clients frees what each points to, and nothing else. -/
theorem freeRecords_spec (fds : List ℕ) (hnodup : fds.Nodup)
    (h : ∀ fd, Accounts blocks fd (pointers fd).blocks (lost fd)) :
    Legal blocks (fds.flatMap fun fd => freeConnectionMemory fd (pointers fd)) ∧
      ∀ fd, Accounts (after blocks (fds.flatMap fun fd => freeConnectionMemory fd (pointers fd))) fd
        (if fd ∈ fds then [] else (pointers fd).blocks) (lost fd) := by
  induction fds generalizing blocks pointers with
  | nil => exact ⟨trivial, fun fd => h fd⟩
  | cons first fds ih =>
    obtain ⟨hnotin, hnodup⟩ := List.nodup_cons.mp hnodup
    have hmanaged := freeConnectionMemory_managed first (pointers first)
    obtain ⟨hlegal, hfreed⟩ := hmanaged.accounts
      (freeConnectionMemory_eq first _ ▸ freshNumbers_releases _ _) (h first)
    -- the first record leaves alone what the others point to
    have hrest : ∀ fd, Accounts (after blocks (freeConnectionMemory first (pointers first))) fd
        (Function.update pointers first .null fd).blocks (lost fd) := by
      intro fd
      by_cases hfd : fd = first
      · rw [hfd, Function.update_self]
        exact hfreed
      · rw [Function.update_of_ne hfd]
        exact (h fd).of_kind_ne hlegal fun call hcall => hmanaged.kind call hcall ▸ Ne.symm hfd
    have hsame : (fds.flatMap fun fd =>
        freeConnectionMemory fd (Function.update pointers first .null fd)) =
          fds.flatMap fun fd => freeConnectionMemory fd (pointers fd) := by
      refine List.flatMap_congr fun fd hfd => ?_
      rw [Function.update_of_ne (show fd ≠ first from fun heq => hnotin (heq ▸ hfd))]
    obtain ⟨hlegal', haccounts⟩ := ih hnodup hrest
    rw [hsame] at hlegal' haccounts
    rw [List.flatMap_cons, legal_append, after_append]
    refine ⟨⟨hlegal, hlegal'⟩, fun fd => ?_⟩
    by_cases hfd : fd = first
    · have := haccounts fd
      rw [hfd, if_neg hnotin, Function.update_self] at this
      rw [hfd, if_pos List.mem_cons_self]
      exact this
    · have := haccounts fd
      rw [Function.update_of_ne hfd] at this
      simpa only [List.mem_cons, hfd, false_or] using this

theorem shutdownMemory_spec (he : q.IndexExact)
    (haccounts : ∀ fd, Accounts blocks fd (pointers fd).blocks (lost fd))
    (hrecords : ∀ fd, (pointers fd).MirrorsRecord (getConnectionByFd q fd)) :
    Legal blocks (shutdownMemory q pointers) ∧
      ∀ fd, Accounts (after blocks (shutdownMemory q pointers)) fd [] (lost fd) := by
  have hnodup : ((List.range q.currentSize).map q.fd).Nodup := by
    refine List.Nodup.map_on (fun i hi j hj heq => ?_) List.nodup_range
    have hi' := he.pos_name i (List.mem_range.mp hi)
    have hj' := he.pos_name j (List.mem_range.mp hj)
    rw [heq] at hi'
    exact Option.some.inj (hi'.symm.trans hj')
  obtain ⟨hlegal, hafter⟩ := freeRecords_spec _ hnodup haccounts
  refine ⟨hlegal, fun fd => ?_⟩
  have hfreed := hafter fd
  split at hfreed
  · exact hfreed
  · rename_i hnotin
    -- a client without a record has no pointers
    have hnone : getConnectionByFd q fd = none := by
      refine Option.eq_none_iff_forall_ne_some.mpr fun c hc => hnotin ?_
      obtain ⟨index, hi, rfl⟩ := Option.map_eq_some_iff.mp hc
      obtain ⟨hlt, hfd⟩ := he.name_pos _ _ hi
      exact hfd ▸ List.mem_map_of_mem (List.mem_range.mpr hlt)
    have hnull := hrecords fd
    rw [hnone] at hnull
    rwa [show pointers fd = .null from hnull] at hfreed

end Shutdown

/-! ### Runs -/

/-- A block in use that no pointer of its client's record refers to. -/
def ThreadHeap.Leaked (s : ThreadHeap) (b : ℕ) : Prop :=
  ∃ fd, s.blocks b = some fd ∧ b ∉ (s.pointers fd).blocks

def ThreadHeap.Reparses (s : ThreadHeap) : HeapAction → Prop
  | .work a _ => s.thread.worker.Reparses a
  | .shutdown => False

/-- What holds between two steps, with the blocks lost. -/
structure ThreadHeap.Sound (s : ThreadHeap) (lost : ℕ → List ℕ) : Prop where
  clean : CleanSlate s.thread
  legal : Legal (fun _ => none) s.calls
  table : s.blocks = after (fun _ => none) s.calls
  accounts : ∀ fd, Accounts s.blocks fd (s.pointers fd).blocks (lost fd)
  held : s.running → HeapHeld s.blocks s.thread.worker s.pointers lost
  stopped : ¬ s.running → ∀ fd, s.pointers fd = .null

/-- The blocks in use are those that the records point to and some lost ones. -/
def ThreadHeap.Accounted (s : ThreadHeap) : Prop := ∃ lost, s.Sound lost

/-- **A safe heap.** Every `free` so far was of a block in use, for the client whose record it was
allocated for; each block was freed at most once. The pointers of a record in the queue are `NULL` where
the record says so and refer to blocks in use otherwise, and no two of them to the same one. After the
shutdown there are none. -/
structure HeapSafe (s : ThreadHeap) : Prop where
  legal : Legal (fun _ => none) s.calls
  once : ∀ l l' b fd, s.calls = l ++ .acquire b fd :: l' → ReleasedOnce s.blocks b fd l'
  records : s.running →
    ∀ fd, (s.pointers fd).MirrorsRecord (getConnectionByFd s.thread.worker.queue fd)
  inUse : ∀ fd, ∀ b ∈ (s.pointers fd).blocks, s.blocks b = some fd
  distinct : ∀ fd, (s.pointers fd).blocks.Nodup
  stopped : ¬ s.running → ∀ fd, s.pointers fd = .null

section Heaps

variable {options : Options} {clock : ℤ} {s s' : ThreadHeap} {a : HeapAction} {lost : ℕ → List ℕ}
  {h : List (Transition ThreadHeap HeapAction)}

theorem ThreadHeap.sound_init (clock : ℤ) : (ThreadHeap.init clock).Sound fun _ => [] where
  clean := cleanSlate_init clock
  legal := trivial
  table := rfl
  accounts := fun fd => accounts_empty fun n => by simp [ThreadHeap.init]
  held := fun _ =>
    { accounts := fun fd => accounts_empty fun n => by simp [ThreadHeap.init]
      records := fun _ => rfl
      filled := fun e he => by cases he }
  stopped := fun hstopped => absurd rfl hstopped

theorem ThreadHeap.Sound.leaked (hs : s.Sound lost) : (∃ b, s.Leaked b) ↔ ∃ fd, lost fd ≠ [] := by
  constructor
  · rintro ⟨b, fd, hleaked⟩
    exact ⟨fd, List.ne_nil_of_mem ((hs.accounts fd).lost_iff.mp hleaked)⟩
  · rintro ⟨fd, hlost⟩
    obtain ⟨b, hb⟩ := List.exists_mem_of_ne_nil _ hlost
    exact ⟨b, fd, (hs.accounts fd).lost_iff.mpr hb⟩

/-- **What every step keeps**, and when it loses a block. -/
theorem ThreadHeap.Sound.step (hs : s.Sound lost) (hfresh : s.MallocsFresh options a)
    (hstep : s.next options a = some s') :
    ∃ lost', s'.Sound lost' ∧
      ((∃ fd, lost' fd ≠ []) ↔ (∃ fd, lost fd ≠ []) ∨ s.Reparses a) := by
  -- the calls of the step, behind those made before
  have hcalls : ∀ {calls : List MemoryCall}, Legal s.blocks calls →
      Legal (fun _ => none) (s.calls ++ calls) ∧
        after s.blocks calls = after (fun _ => none) (s.calls ++ calls) := by
    intro calls hlegal
    refine ⟨legal_append.mpr ⟨hs.legal, hs.table ▸ hlegal⟩, ?_⟩
    rw [after_append, ← hs.table]
  unfold ThreadHeap.next at hstep
  simp only at hstep
  unfold ThreadHeap.MallocsFresh at hfresh
  by_cases hrunning : s.running = true
  · rw [if_pos hrunning] at hstep
    have hheld := hs.held hrunning
    cases a with
    | work action m =>
      obtain ⟨thread, hthread, rfl⟩ := Option.map_eq_some_iff.mp hstep
      have hclean : CleanSlate thread := cleanSlate_step hthread hs.clean
      obtain ⟨htimely, ⟨effects, hwork⟩, -, -⟩ := threadStep_inv hthread
      obtain ⟨hlegal, lost', hheld', hlost⟩ := hheld.remembers
        (Worker.step_remembers hs.clean.sound hheld hs.clean.pristine htimely hwork) hfresh
      obtain ⟨hlegal, htable⟩ := hcalls hlegal
      exact ⟨lost', ⟨hclean, hlegal, htable, hheld'.accounts, fun _ => hheld',
        fun hstopped => absurd rfl hstopped⟩, hlost⟩
    | shutdown =>
      simp only at hstep
      split at hstep
      · obtain rfl := Option.some.inj hstep
        obtain ⟨hlegal, haccounts⟩ := shutdownMemory_spec hs.clean.sound.timed.exact hs.accounts
          hheld.records
        obtain ⟨hlegal, htable⟩ := hcalls hlegal
        exact ⟨lost, ⟨hs.clean, hlegal, htable, haccounts, fun hrun => absurd hrun (by simp),
          fun _ _ => rfl⟩, (or_iff_left id).symm⟩
      · cases hstep
  · rw [if_neg hrunning] at hstep
    cases hstep

theorem ThreadHeap.running_of_step (hstep : HeapStep options s a s') : s.running = true := by
  unfold HeapStep ThreadHeap.next at hstep
  simp only at hstep
  split_ifs at hstep with hrunning
  exact hrunning

theorem ThreadHeap.Sound.legal_prefix {made : List MemoryCall} (hs : s.Sound lost)
    (hstep : s.next options a = some s') (hmade : made <+: s.callsOf options a)
    (hfresh : FreshNumbers s.blocks made) : Legal s.blocks made := by
  unfold ThreadHeap.next at hstep
  simp only at hstep
  split_ifs at hstep with hrunning
  have hheld := hs.held hrunning
  cases a with
  | work action m =>
    obtain ⟨thread, hthread, rfl⟩ := Option.map_eq_some_iff.mp hstep
    obtain ⟨htimely, ⟨effects, hwork⟩, -, -⟩ := threadStep_inv hthread
    exact hheld.legal_prefix
      (Worker.step_remembers hs.clean.sound hheld hs.clean.pristine htimely hwork) hmade hfresh
  | shutdown =>
    obtain ⟨later, hcalls⟩ := hmade
    have hlegal := (shutdownMemory_spec hs.clean.sound.timed.exact hs.accounts hheld.records).1
    rw [show shutdownMemory _ _ = made ++ later from hcalls.symm] at hlegal
    exact (legal_append.mp hlegal).1

theorem ThreadHeap.accounted_init (clock : ℤ) : (ThreadHeap.init clock).Accounted :=
  ⟨_, ThreadHeap.sound_init clock⟩

theorem accounted_step (s : ThreadHeap) (a : HeapAction) (t : ThreadHeap)
    (hstep : HeapStep options s a t) (hfresh : s.MallocsFresh options a) (hs : s.Accounted) :
    t.Accounted := by
  obtain ⟨lost, hs⟩ := hs
  obtain ⟨lost', ht, -⟩ := hs.step hfresh hstep
  exact ⟨lost', ht⟩

/-- A step loses a block when it parses a request again, and no lost block comes back. -/
theorem leaked_step (s : ThreadHeap) (a : HeapAction) (t : ThreadHeap)
    (hstep : HeapStep options s a t) (hfresh : s.MallocsFresh options a) (hs : s.Accounted) :
    (∃ b, t.Leaked b) ↔ (∃ b, s.Leaked b) ∨ s.Reparses a := by
  obtain ⟨lost, hs⟩ := hs
  obtain ⟨lost', ht, hlost⟩ := hs.step hfresh hstep
  rw [ht.leaked, hs.leaked, hlost]

/-- **The heap of a run is safe**, whatever fresh addresses `malloc` returns. -/
theorem heapSafe (hrun : Run (HeapStep options) (.init clock) h s)
    (hfresh : Guarded (fun s a => s.MallocsFresh options a) h) : HeapSafe s := by
  obtain ⟨lost, hs⟩ : s.Accounted :=
    hrun.invariant_of_guard (ThreadHeap.accounted_init clock) accounted_step hfresh
  refine ⟨hs.legal, fun l l' b fd hcalls => ?_, fun hrunning => (hs.held hrunning).records,
    fun fd b hb => (hs.accounts fd).inUse_of_mem hb, fun fd => ?_, hs.stopped⟩
  · rw [hs.table, hcalls]
    exact (hcalls ▸ hs.legal).releasedOnce_of_acquired
  · exact (List.nodup_append.mp (hs.accounts fd).once).1

/-- **Leaks.** At the end of a run, and after the shutdown too, a block is in use that nothing refers to
exactly when a step of the run has parsed a request again. -/
theorem leaked_iff (hrun : Run (HeapStep options) (.init clock) h s)
    (hfresh : Guarded (fun s a => s.MallocsFresh options a) h) :
    (∃ b, s.Leaked b) ↔ ∃ e ∈ h, e.pre.Reparses e.act := by
  have hnone : ¬ ∃ b, (ThreadHeap.init clock).Leaked b := by
    rintro ⟨b, fd, hb, -⟩
    cases hb
  exact hrun.lasting_iff (P := fun s => ∃ b, s.Leaked b)
    ⟨ThreadHeap.accounted_init clock, hnone⟩ accounted_step leaked_step hfresh

end Heaps

/-! ### A request without header lines -/

/-- `malloc` returns the addresses from `start` on. -/
def mallocsFrom (start : ℕ) : Mallocs where
  requestBuffer := start
  path := start + 1
  absolutePath := start + 2
  requestBody := start + 3
  header := fun line =>
    ⟨start + 5 + 4 * line, start + 6 + 4 * line, start + 7 + 4 * line, start + 8 + 4 * line⟩
  responseBufferHeaders := start + 4

/-- The socket takes nothing of the response, and the request is parsed again; then the connection
fails, the client is closed, and the thread ends. -/
def bareRequestBlocked : List HeapAction :=
  [.work (.readTime 100) (mallocsFrom 10), .work .sweep (mallocsFrom 10),
    .work (.epollWait [.client 5 true]) (mallocsFrom 10),
    .work (.nextEvent 100 .zeroed) (mallocsFrom 10), .work (.call (localSys 100)) (mallocsFrom 20),
    .work (.call { localSys 100 with recv := .data (bytes "GET / HTTP/1.1\r\n\r\n") })
      (mallocsFrom 20),
    .work (.call (localSys 100)) (mallocsFrom 20), .work (.call (localSys 100)) (mallocsFrom 30),
    .work (.call (localSys 100)) (mallocsFrom 30),
    .work (.call { localSys 100 with send := .error }) (mallocsFrom 40),
    .work (.call (localSys 100)) (mallocsFrom 40), .work .endEvent (mallocsFrom 40),
    .work (.nextEvent 100 .zeroed) (mallocsFrom 40), .shutdown]

theorem heapSafe_bareRequest :
    ∃ s : ThreadHeap, s.running = false ∧ .release 24 5 ∈ s.calls ∧ HeapSafe s := by
  obtain ⟨h, s, hrun, hfresh, hp⟩ := exists_run_of_guarded (ThreadHeap.next wwwOptions)
    (fun s a => s.MallocsFresh wwwOptions a) (ThreadHeap.init 100) bareRequestBlocked
    (p := fun s => s.running = false ∧ .release 24 5 ∈ s.calls) (by decide +kernel)
  obtain ⟨hstopped, hfreed⟩ := of_decide_eq_true hp
  exact ⟨s, hstopped, hfreed, heapSafe hrun hfresh⟩

/-- The strings of the first parse are never freed. -/
theorem leaked_bareRequest :
    ∃ (h : List (Transition ThreadHeap HeapAction)) (s : ThreadHeap),
      Run (HeapStep wwwOptions) (.init 100) h s ∧ s.running = false ∧
        ∃ e ∈ h, e.pre.Reparses e.act := by
  obtain ⟨h, s, hrun, hfresh, hp⟩ := exists_run_of_guarded (ThreadHeap.next wwwOptions)
    (fun s a => s.MallocsFresh wwwOptions a) (ThreadHeap.init 100) bareRequestBlocked
    (p := fun s => s.running = false ∧ s.blocks 21 = some 5 ∧ 21 ∉ (s.pointers 5).blocks)
    (by decide +kernel)
  obtain ⟨hstopped, hin, hout⟩ := of_decide_eq_true hp
  exact ⟨h, s, hrun, hstopped, (leaked_iff hrun hfresh).mp ⟨21, 5, hin, hout⟩⟩

end UbServer

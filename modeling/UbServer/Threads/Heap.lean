import UbServer.Memory
import UbServer.Lib.Tokenizer
import UbServer.Threads.Projection

/-!
# The heap of the server

All threads allocate the strings of their records on one heap, and `strtok` keeps one position for all of
them. The calls of `malloc`, `free` and `strtok` are steps of their own, between which the other threads
make theirs, so that a block that one thread frees may be handed out to another at once. What a system
call answers to a thread is left open, so that these are the runs of a server with one `epoll` instance
and of one with an instance for each.

* `Worker.libraryCalls`: the calls of a step of a thread.
* `ServerHeap`: the threads, the steps that they are in, the pointers of their records, and the blocks.
* `ThreadHeap.Within`: the heap of a single thread that is a thread's share of it.
* `ServerHeap.system_run`: a run of the server is one in which no thread comes between the calls of
  another.
* `serverHeap_safe`: what the threads do to the blocks, in every interleaving of the calls.
* `serverHeap_empty_iff`: whether everything has been freed when the threads have ended.
-/

namespace UbServer

open CString Handles Runs SharedTokens QueueConnectionsType

/-! ### The calls of a step -/

/-- A call of `malloc` or `free`, or a turn of the loop with `strtok`. -/
inductive LibraryCall where
  | memory (call : MemoryCall)
  | strtok (turn : Turn UInt8)

/-- The calls of `malloc` and `free` among them. -/
def memoryCalls (calls : List LibraryCall) : List MemoryCall :=
  calls.filterMap fun
    | .memory call => some call
    | .strtok _ => none

section Functions

variable (options : Options) (sys : Sys) (m : Mallocs) (clientFd : ℕ)

/-- The loop of `processRequest` over the header lines, after the first call of `strtok`. -/
def headersLoopLibraryCalls : List HeaderMallocs → List LibraryCall
  | [] => [.strtok .finish]
  | line :: lines =>
    .memory (.acquire line.name clientFd) :: .memory (.acquire line.value clientFd) ::
      .memory (.acquire line.headerNode clientFd) :: .memory (.acquire line.nameLower clientFd) ::
        .memory (.release line.name clientFd) :: .strtok .null :: headersLoopLibraryCalls lines

/-- The part of `processRequest` after the request line, which ends at `firstLineLength`. -/
def processHeadersLibraryCalls (text : Bytes) (firstLineLength : ℕ) : List LibraryCall :=
  let buffer := text.drop (firstLineLength + 2)
  match strstr crlfcrlf buffer with
  | none => []
  | some endOfHeaders =>
    let body := buffer.drop (endOfHeaders + 4)
    let headersSize := firstLineLength + 2 + (endOfHeaders + 4) - firstLineLength
    let headersString := (text.drop firstLineLength).take headersSize
    let lines := (strtok isLineBreak headersString).length
    let loop := .strtok (.start headersString) ::
      headersLoopLibraryCalls clientFd ((List.range lines).map m.header)
    if body = [] then loop else .memory (.acquire m.requestBody clientFd) :: loop

/-- The calls of `processRequest`. -/
def processRequestLibraryCalls (connection : QueueConnectionElementType) : List LibraryCall :=
  let text := cString (connection.requestBuffer.getD [])
  match sys.request.peer, strstr crlf text with
  | some _, some firstLineLength =>
    match scanRequestLine sys.request (text.take firstLineLength) with
    | none => []
    | some (method, _, _) =>
      if strToMethod method = .unsupported then [.memory (.acquire m.path clientFd)]
      else
        .memory (.acquire m.path clientFd) :: .memory (.acquire m.absolutePath clientFd) ::
          processHeadersLibraryCalls m clientFd text firstLineLength
  | _, _ => []

/-- `case STATE_CONNECTION_SEND_HEADERS` of a record with the pointers `p`. -/
def sendHeadersCaseLibraryCalls (connection : QueueConnectionElementType) (p : Pointers) :
    List LibraryCall :=
  if connection.requestHeaders = [] then
    let parsed := processRequestLibraryCalls sys m clientFd connection
    match processRequest options sys.request connection with
    | none => parsed
    | some (isValidRequest, connection') =>
      if ¬ isValidRequest then parsed
      else if ¬ supportedProtocol connection'.protocolVersion then parsed
      else if isHello connection'.path then parsed
      else
        let p := (processRequestMemory sys m clientFd connection p).1
        parsed ++ (respondMemory m clientFd connection' p).2.map .memory
  else (respondMemory m clientFd connection p).2.map .memory

end Functions

/-- The turns of `strtok` among them. -/
def strtokTurns (calls : List LibraryCall) : List (Turn UInt8) :=
  calls.filterMap fun
    | .memory _ => none
    | .strtok turn => some turn

/-- The calls of a step of the thread. -/
def Worker.libraryCalls (options : Options) (w : Worker) (m : Mallocs) (pointers : ℕ → Pointers)
    (a : WorkerAction) : List LibraryCall :=
  let others := (changeCalls (w.memory options m pointers a)).map .memory
  match a, w.phase with
  | .call sys, .handling e _ =>
    let connection := w.queue.connections e.slot
    match e.pc, connection.state with
    | .switch, .sendHeaders =>
      sendHeadersCaseLibraryCalls options sys m e.clientFd connection (pointers e.clientFd)
    | _, _ => others
  | _, _ => others

section Calls

variable {options : Options} {sys : Sys} {m : Mallocs} {fd : ℕ} {p : Pointers}

@[simp] theorem memoryCalls_nil : memoryCalls [] = [] := rfl

@[simp] theorem memoryCalls_memory (call : MemoryCall) (calls : List LibraryCall) :
    memoryCalls (.memory call :: calls) = call :: memoryCalls calls := rfl

@[simp] theorem memoryCalls_strtok (turn : Turn UInt8) (calls : List LibraryCall) :
    memoryCalls (.strtok turn :: calls) = memoryCalls calls := rfl

@[simp] theorem memoryCalls_append (calls calls' : List LibraryCall) :
    memoryCalls (calls ++ calls') = memoryCalls calls ++ memoryCalls calls' :=
  List.filterMap_append

@[simp] theorem memoryCalls_map (calls : List MemoryCall) :
    memoryCalls (calls.map .memory) = calls := by
  induction calls with
  | nil => rfl
  | cons call calls ih => rw [List.map_cons, memoryCalls_memory, ih]

theorem memoryCalls_headersLoop (fd : ℕ) (lines : List HeaderMallocs)
    (headers : List HeaderPointers) :
    memoryCalls (headersLoopLibraryCalls fd lines) = (headersLoopMemory fd lines headers).2 := by
  induction lines generalizing headers with
  | nil => rfl
  | cons line lines ih =>
    simp only [headersLoopLibraryCalls, headersLoopMemory, memoryCalls_memory, memoryCalls_strtok]
    rw [ih]

theorem memoryCalls_processHeaders (m : Mallocs) (fd : ℕ) (text : Bytes) (firstLineLength : ℕ)
    (p : Pointers) :
    memoryCalls (processHeadersLibraryCalls m fd text firstLineLength) =
      (processHeadersMemory m fd text firstLineLength p).2 := by
  unfold processHeadersLibraryCalls processHeadersMemory
  simp only
  cases strstr crlfcrlf (text.drop (firstLineLength + 2)) with
  | none => rfl
  | some endOfHeaders =>
    simp only
    split <;> simp only [memoryCalls_memory, memoryCalls_strtok] <;>
      rw [memoryCalls_headersLoop fd _ p.requestHeaders]

theorem memoryCalls_processRequest (sys : Sys) (m : Mallocs) (fd : ℕ)
    (c : QueueConnectionElementType) (p : Pointers) :
    memoryCalls (processRequestLibraryCalls sys m fd c) = (processRequestMemory sys m fd c p).2 := by
  unfold processRequestLibraryCalls processRequestMemory
  simp only
  cases sys.request.peer with
  | none => rfl
  | some ip =>
    cases strstr crlf (cString (c.requestBuffer.getD [])) with
    | none => rfl
    | some firstLineLength =>
      simp only
      cases scanRequestLine sys.request ((cString (c.requestBuffer.getD [])).take firstLineLength) with
      | none => rfl
      | some scanned =>
        simp only
        split
        · rfl
        · simp only [memoryCalls_memory]
          rw [memoryCalls_processHeaders]

theorem memoryCalls_sendHeadersCase (m : Mallocs) (fd : ℕ) (c : QueueConnectionElementType)
    (p : Pointers) :
    memoryCalls (sendHeadersCaseLibraryCalls options sys m fd c p) =
      (sendHeadersCaseMemory options sys m fd c p).2 := by
  unfold sendHeadersCaseLibraryCalls sendHeadersCaseMemory
  split
  · have hparsed := memoryCalls_processRequest sys m fd c p
    simp only
    cases processRequest options sys.request c with
    | none => exact hparsed
    | some answer =>
      simp only
      split_ifs with hvalid hprotocol hhello
      · exact hparsed
      · rw [memoryCalls_append, memoryCalls_map, hparsed]
      · exact hparsed
      · exact hparsed
  · exact memoryCalls_map _

/-- Between its calls of `strtok` a step makes those of `Worker.memory`. -/
theorem Worker.memoryCalls_libraryCalls (options : Options) (w : Worker) (m : Mallocs)
    (pointers : ℕ → Pointers) (a : WorkerAction) :
    memoryCalls (w.libraryCalls options m pointers a) =
      changeCalls (w.memory options m pointers a) := by
  unfold Worker.libraryCalls
  simp only
  split
  · rename_i sys e events hphase
    split
    · rename_i hpc hstate
      unfold Worker.memory EventLoop.memory
      simp only [hphase, hpc, hstate]
      exact memoryCalls_sendHeadersCase m _ _ _
    · exact memoryCalls_map _
  · exact memoryCalls_map _

@[simp] theorem strtokTurns_nil : strtokTurns [] = [] := rfl

@[simp] theorem strtokTurns_memory (call : MemoryCall) (calls : List LibraryCall) :
    strtokTurns (.memory call :: calls) = strtokTurns calls := rfl

@[simp] theorem strtokTurns_strtok (turn : Turn UInt8) (calls : List LibraryCall) :
    strtokTurns (.strtok turn :: calls) = turn :: strtokTurns calls := rfl

@[simp] theorem strtokTurns_append (calls calls' : List LibraryCall) :
    strtokTurns (calls ++ calls') = strtokTurns calls ++ strtokTurns calls' :=
  List.filterMap_append

@[simp] theorem strtokTurns_map (calls : List MemoryCall) :
    strtokTurns (calls.map .memory) = [] := by
  induction calls with
  | nil => rfl
  | cons call calls ih => rw [List.map_cons, strtokTurns_memory, ih]

/-- The calls go through one text with `strtok`, or through none. -/
def OneText (calls : List LibraryCall) : Prop :=
  strtokTurns calls = [] ∨ ∃ text, strtokTurns calls = turns isLineBreak text

theorem strtokTurns_headersLoop (fd : ℕ) (lines : List HeaderMallocs) :
    strtokTurns (headersLoopLibraryCalls fd lines) =
      List.replicate lines.length .null ++ [.finish] := by
  induction lines with
  | nil => rfl
  | cons line lines ih =>
    simp only [headersLoopLibraryCalls, strtokTurns_memory, strtokTurns_strtok]
    rw [ih, List.length_cons, List.replicate_succ, List.cons_append]

theorem oneText_processHeaders (m : Mallocs) (fd : ℕ) (text : Bytes) (firstLineLength : ℕ) :
    OneText (processHeadersLibraryCalls m fd text firstLineLength) := by
  unfold processHeadersLibraryCalls
  simp only
  cases strstr crlfcrlf (text.drop (firstLineLength + 2)) with
  | none => exact Or.inl rfl
  | some endOfHeaders =>
    refine Or.inr ⟨(text.drop firstLineLength).take
      (firstLineLength + 2 + (endOfHeaders + 4) - firstLineLength), ?_⟩
    simp only
    split <;> simp only [strtokTurns_memory, strtokTurns_strtok] <;>
      rw [strtokTurns_headersLoop, List.length_map, List.length_range, turns]

theorem oneText_processRequest (sys : Sys) (m : Mallocs) (fd : ℕ) (c : QueueConnectionElementType) :
    OneText (processRequestLibraryCalls sys m fd c) := by
  unfold processRequestLibraryCalls
  simp only
  split
  · split
    · exact Or.inl rfl
    · split_ifs
      · exact Or.inl rfl
      · exact oneText_processHeaders m fd _ _
  · exact Or.inl rfl

theorem oneText_sendHeadersCase (m : Mallocs) (fd : ℕ) (c : QueueConnectionElementType)
    (p : Pointers) : OneText (sendHeadersCaseLibraryCalls options sys m fd c p) := by
  have hparsed := oneText_processRequest sys m fd c
  unfold sendHeadersCaseLibraryCalls
  split
  · simp only
    cases processRequest options sys.request c with
    | none => exact hparsed
    | some answer =>
      simp only
      split_ifs
      · exact hparsed
      · unfold OneText at hparsed ⊢
        rwa [strtokTurns_append, strtokTurns_map, List.append_nil]
      · exact hparsed
      · exact hparsed
  · exact Or.inl (strtokTurns_map _)

theorem Worker.oneText_libraryCalls (options : Options) (w : Worker) (m : Mallocs)
    (pointers : ℕ → Pointers) (a : WorkerAction) : OneText (w.libraryCalls options m pointers a) := by
  unfold Worker.libraryCalls
  simp only
  split
  · split
    · exact oneText_sendHeadersCase m _ _ _
    · exact Or.inl (strtokTurns_map _)
  · exact Or.inl (strtokTurns_map _)

end Calls

/-! ### The server and its heap -/

/-- The threads, whether each one runs, the pointers of the records in its queue, by client, the step
that it is in, with the calls to come, the loops over header lines, the blocks in use and the calls made
so far. The thread and its pointers are as the last step left them. A block is in use for the thread that
allocated it and the client whose record it was allocated for. -/
structure ServerHeap (n : ℕ) where
  threads : Fin n → Thread
  running : Fin n → Bool
  pointers : Fin n → ℕ → Pointers
  work : Fin n → Option (HeapAction × List LibraryCall)
  strtok : Tokenizer (Fin n) UInt8
  blocks : Table (Fin n × ℕ)
  calls : List (Call (Fin n × ℕ))

def ServerHeap.init (n : ℕ) (clock : ℤ) : ServerHeap n where
  threads _ := .init clock
  running _ := true
  pointers _ _ := .null
  work _ := none
  strtok := .init
  blocks _ := none
  calls := []

/-- A thread begins a step or its end, makes the next call of it, or is done with it. -/
inductive ServerAction (n : ℕ) where
  | starts (t : Fin n) (a : HeapAction)
  | call (t : Fin n)
  | done (t : Fin n)

def ServerAction.thread {n : ℕ} : ServerAction n → Fin n
  | .starts t _ | .call t | .done t => t

section Steps

variable {n : ℕ} (options : Options) (s : ServerHeap n) (t : Fin n)

/-- The calls of a step of the thread. -/
def ServerHeap.libraryCalls : HeapAction → List LibraryCall
  | .work a m => (s.threads t).worker.libraryCalls options m (s.pointers t) a
  | .shutdown => (shutdownMemory (s.threads t).worker.queue (s.pointers t)).map .memory

/-- The thread after a step, whether it runs on, and the pointers of its records. -/
def ServerHeap.afterStep : HeapAction → Option (Thread × Bool × (ℕ → Pointers))
  | .work a m => ((s.threads t).next options a).map fun thread =>
      (thread, true, changePointers (s.pointers t)
        ((s.threads t).worker.memory options m (s.pointers t) a))
  | .shutdown =>
    match (s.threads t).worker.phase with
    | .top => some (s.threads t, false, fun _ => .null)
    | _ => none

/-- The thread when it is done with a step. -/
def ServerHeap.finish (thread : Thread) (running : Bool) (pointers : ℕ → Pointers) : ServerHeap n :=
  { s with
    threads := Function.update s.threads t thread
    running := Function.update s.running t running
    pointers := Function.update s.pointers t pointers
    work := Function.update s.work t none }

/-- One step. A thread begins what it can do, and a call of `strtok` that goes on in the header lines of
another thread is undefined. -/
def ServerHeap.next : ServerAction n → Option (ServerHeap n)
  | .starts t a =>
    if s.running t ∧ (s.work t).isNone ∧ (s.afterStep options t a).isSome then
      some { s with work := Function.update s.work t (some (a, s.libraryCalls options t a)) }
    else none
  | .call t =>
    match s.work t with
    | some (a, .memory call :: calls) =>
      some { s with
        work := Function.update s.work t (some (a, calls))
        blocks := (call.of t).after s.blocks
        calls := s.calls ++ [call.of t] }
    | some (a, .strtok turn :: calls) =>
      (s.strtok.next isLineBreak t turn).map fun strtok =>
        { s with work := Function.update s.work t (some (a, calls)), strtok := strtok }
    | _ => none
  | .done t =>
    match s.work t with
    | some (a, []) => (s.afterStep options t a).map fun (thread, running, pointers) =>
      s.finish t thread running pointers
    | _ => none

/-- One step, as a step relation. -/
abbrev ServerStep (a : ServerAction n) (s' : ServerHeap n) : Prop := s.next options a = some s'

/-- `malloc` returns an address that is not in use. -/
def ServerHeap.MallocFresh : ServerAction n → Prop
  | .call t =>
    match s.work t with
    | some (_, .memory call :: _) => (call.of t).FreshNumbers s.blocks
    | _ => True
  | _ => True

instance : (a : ServerAction n) → Decidable (s.MallocFresh a)
  | .call t => by
    unfold ServerHeap.MallocFresh
    simp only
    split <;> infer_instance
  | .starts .. | .done _ => inferInstanceAs (Decidable True)

/-- The thread is done with a step that has parsed a request again. -/
def ServerHeap.Reparses : ServerAction n → Prop
  | .done t => ∃ a m, (s.work t).map Prod.fst = some (.work a m) ∧ (s.threads t).worker.Reparses a
  | _ => False

/-- Everything a step can do. -/
inductive ServerHeap.Stepped : ServerAction n → ServerHeap n → Prop
  | started (t : Fin n) (a : HeapAction) (after : Thread × Bool × (ℕ → Pointers)) :
      s.running t = true → s.work t = none → s.afterStep options t a = some after →
      Stepped (.starts t a)
        { s with work := Function.update s.work t (some (a, s.libraryCalls options t a)) }
  | memory (t : Fin n) (a : HeapAction) (call : MemoryCall) (calls : List LibraryCall) :
      s.work t = some (a, .memory call :: calls) →
      Stepped (.call t)
        { s with
          work := Function.update s.work t (some (a, calls))
          blocks := (call.of t).after s.blocks
          calls := s.calls ++ [call.of t] }
  | strtok (t : Fin n) (a : HeapAction) (turn : Turn UInt8) (calls : List LibraryCall)
      (strtok : Tokenizer (Fin n) UInt8) : s.work t = some (a, .strtok turn :: calls) →
      Stepped (.call t)
        { s with work := Function.update s.work t (some (a, calls)), strtok := strtok }
  | finished (t : Fin n) (a : HeapAction) (thread : Thread) (running : Bool)
      (pointers : ℕ → Pointers) : s.work t = some (a, []) →
      s.afterStep options t a = some (thread, running, pointers) →
      Stepped (.done t) (s.finish t thread running pointers)

/-- **The cases of a step.** -/
theorem ServerHeap.step_cases {a : ServerAction n} {s' : ServerHeap n}
    (h : ServerStep options s a s') : s.Stepped options a s' := by
  unfold ServerStep ServerHeap.next at h
  cases a with
  | starts t a =>
    simp only at h
    split at h
    · rename_i hguard
      obtain ⟨hrunning, hwork, hafter⟩ := hguard
      obtain ⟨after, hafter⟩ := Option.isSome_iff_exists.mp hafter
      obtain rfl := Option.some.inj h
      exact .started t a after hrunning (Option.isNone_iff_eq_none.mp hwork) hafter
    · cases h
  | call t =>
    simp only at h
    split at h
    · obtain rfl := Option.some.inj h
      exact .memory t _ _ _ ‹_›
    · obtain ⟨strtok, -, rfl⟩ := Option.map_eq_some_iff.mp h
      exact .strtok t _ _ _ strtok ‹_›
    · cases h
  | done t =>
    simp only at h
    split at h
    · obtain ⟨⟨thread, running, pointers⟩, hafter, rfl⟩ := Option.map_eq_some_iff.mp h
      exact .finished t _ thread running pointers ‹_› hafter
    · cases h

end Steps

/-! ### Steps with their calls in one -/

section InOne

variable {n : ℕ} {options : Options} {s : ServerHeap n} {t : Fin n} {a : HeapAction}

/-- A thread makes its calls one after the other. -/
theorem ServerHeap.exec_calls (options : Options) {calls : List LibraryCall}
    {strtok : Tokenizer (Fin n) UInt8} (hwork : s.work t = some (a, calls))
    (hturns : exec (fun s turn => s.next isLineBreak t turn) s.strtok (strtokTurns calls) =
      some strtok) :
    ∃ s', exec (ServerHeap.next options) s (List.replicate calls.length (.call t)) = some s' ∧
      s'.threads = s.threads ∧ s'.running = s.running ∧ s'.pointers = s.pointers ∧
      s'.work = Function.update s.work t (some (a, [])) ∧ s'.strtok = strtok := by
  induction calls generalizing s with
  | nil =>
    obtain rfl := Option.some.inj hturns
    exact ⟨s, rfl, rfl, rfl, rfl, by rw [← hwork, Function.update_eq_self], rfl⟩
  | cons call calls ih =>
    obtain ⟨s₁, hnext, hwork₁, hthreads₁, hrunning₁, hpointers₁, hturns₁⟩ :
        ∃ s₁, s.next options (.call t) = some s₁ ∧
          s₁.work = Function.update s.work t (some (a, calls)) ∧ s₁.threads = s.threads ∧
          s₁.running = s.running ∧ s₁.pointers = s.pointers ∧
          exec (fun s turn => s.next isLineBreak t turn) s₁.strtok (strtokTurns calls) =
            some strtok := by
      unfold ServerHeap.next
      simp only [hwork]
      cases call with
      | memory call => exact ⟨_, rfl, rfl, rfl, rfl, rfl, hturns⟩
      | strtok turn =>
        rw [strtokTurns_strtok] at hturns
        obtain ⟨position, hturn, hturns⟩ := Option.bind_eq_some_iff.mp hturns
        simp only [hturn, Option.map_some]
        exact ⟨_, rfl, rfl, rfl, rfl, rfl, hturns⟩
    obtain ⟨s', hexec, hthreads, hrunning, hpointers, hdone, hstrtok⟩ :=
      ih (by rw [hwork₁, Function.update_self]) hturns₁
    refine ⟨s', ?_, hthreads.trans hthreads₁, hrunning.trans hrunning₁, hpointers.trans hpointers₁,
      ?_, hstrtok⟩
    · rw [List.length_cons, List.replicate_succ, exec, hnext]
      exact hexec
    · rw [hdone, hwork₁, Function.update_idem]

theorem ServerHeap.afterStep_congr {s' : ServerHeap n} (hthreads : s'.threads = s.threads)
    (hpointers : s'.pointers = s.pointers) (t : Fin n) (a : HeapAction) :
    s'.afterStep options t a = s.afterStep options t a := by
  unfold ServerHeap.afterStep
  rw [hthreads, hpointers]

/-- A thread that is in no step makes one, with all its calls. -/
theorem ServerHeap.exec_step {thread : Thread} {running : Bool} {pointers : ℕ → Pointers}
    (hrunning : s.running t = true) (hwork : s.work t = none) (hreading : s.strtok.readings t = none)
    (hafter : s.afterStep options t a = some (thread, running, pointers)) :
    ∃ s', exec (ServerHeap.next options) s (.starts t a ::
        (List.replicate (s.libraryCalls options t a).length (.call t) ++ [.done t])) = some s' ∧
      s'.threads = Function.update s.threads t thread ∧
      s'.running = Function.update s.running t running ∧
      s'.work = s.work ∧ s'.strtok.readings = s.strtok.readings := by
  -- the turns of `strtok` come to the end of a text
  obtain ⟨strtok, hturns, hreadings⟩ : ∃ strtok, exec (fun s turn => s.next isLineBreak t turn)
      s.strtok (strtokTurns (s.libraryCalls options t a)) = some strtok ∧
        strtok.readings = s.strtok.readings := by
    have hone : OneText (s.libraryCalls options t a) := by
      cases a with
      | work action m => exact Worker.oneText_libraryCalls options _ m _ action
      | shutdown => exact Or.inl (strtokTurns_map _)
    rcases hone with hnone | ⟨text, htext⟩
    · exact ⟨s.strtok, by rw [hnone]; rfl, rfl⟩
    · rw [htext]
      exact Tokenizer.exec_turns hreading text
  obtain ⟨s₁, hstart, hwork₁, hthreads₁, hrunning₁, hpointers₁, hturns₁⟩ :
      ∃ s₁, s.next options (.starts t a) = some s₁ ∧
        s₁.work = Function.update s.work t (some (a, s.libraryCalls options t a)) ∧
        s₁.threads = s.threads ∧ s₁.running = s.running ∧ s₁.pointers = s.pointers ∧
        exec (fun s turn => s.next isLineBreak t turn) s₁.strtok
          (strtokTurns (s.libraryCalls options t a)) = some strtok := by
    unfold ServerHeap.next
    simp only
    rw [if_pos ⟨hrunning, Option.isNone_iff_eq_none.mpr hwork, by rw [hafter]; rfl⟩]
    exact ⟨_, rfl, rfl, rfl, rfl, rfl, hturns⟩
  obtain ⟨s₂, hcalls, hthreads₂, hrunning₂, hpointers₂, hwork₂, rfl⟩ :=
    ServerHeap.exec_calls options (by rw [hwork₁, Function.update_self]) hturns₁
  have hdone : s₂.next options (.done t) = some (s₂.finish t thread running pointers) := by
    unfold ServerHeap.next
    simp only [hwork₂, Function.update_self]
    rw [ServerHeap.afterStep_congr (hthreads₂.trans hthreads₁) (hpointers₂.trans hpointers₁), hafter]
    rfl
  refine ⟨s₂.finish t thread running pointers, ?_, ?_, ?_, ?_, hreadings⟩
  · rw [exec, hstart, Option.bind_some, exec_append, hcalls, Option.bind_some, exec, hdone]
    rfl
  · show Function.update s₂.threads t thread = _
    rw [hthreads₂, hthreads₁]
  · show Function.update s₂.running t running = _
    rw [hrunning₂, hrunning₁]
  · show Function.update s₂.work t none = s.work
    rw [hwork₂, hwork₁, Function.update_idem, Function.update_idem, ← hwork, Function.update_eq_self]

/-- The threads of the heap are those of the server, and are in no step. -/
structure ServerHeap.Rests (v : ServerHeap n) (s : System n) : Prop where
  plays : ∀ t, (v.threads t).Plays s t
  running : ∀ t, v.running t = true
  work : ∀ t, v.work t = none
  readings : ∀ t, v.strtok.readings t = none

/-- **The server with its heap.** A run of the server, whatever `malloc` returns, is one in which no
thread comes between the calls of another. -/
theorem ServerHeap.system_run {clock : ℤ} {s : System n}
    {h : List (Transition (System n) (SystemAction n))}
    (hr : Run (SystemStep options) (.init n clock) h s) (mallocs : ℕ → Mallocs) :
    ∃ h' v, Run (ServerStep options) (.init n clock) h' v ∧ v.Rests s := by
  induction hr with
  | nil =>
    exact ⟨[], _, .nil, fun t => Thread.plays_init n clock t, fun _ => rfl, fun _ => rfl,
      fun _ => rfl⟩
  | @snoc h s s' a hr hst ih =>
    obtain ⟨h', v, hrun, hv⟩ := ih
    have hs : s.Sound := hr.invariant (System.sound_init n clock) fun _ _ _ hst hs =>
      System.step_sound hs hst
    by_cases ha : ∃ t b, a = .thread t b
    · obtain ⟨t, b, rfl⟩ := ha
      obtain ⟨thread, hstep, hplays⟩ := (hv.plays t).step hs hst
      obtain ⟨v', hexec, hthreads, hrunning, hwork, hreadings⟩ :=
        ServerHeap.exec_step (hv.running t) (hv.work t) (hv.readings t)
          (a := .work b (mallocs h.length)) (Option.map_eq_some_iff.mpr ⟨thread, hstep, rfl⟩)
      refine ⟨_, v', hrun.append_exec hexec, fun u => ?_, fun u => ?_, fun u => ?_, fun u => ?_⟩
      · rw [hthreads]
        by_cases hu : u = t
        · rw [hu, Function.update_self]
          exact hplays
        · rw [Function.update_of_ne hu]
          exact (hv.plays u).others hs hst fun b' hb => hu (SystemAction.thread.inj hb).1.symm
      · have hsame : Function.update v.running t true = v.running := by
          rw [← hv.running t, Function.update_eq_self]
        rw [hrunning, hsame]
        exact hv.running u
      · rw [hwork, hv.work]
      · rw [hreadings, hv.readings]
    · exact ⟨h', v, hrun, fun t => (hv.plays t).others hs hst fun b hb => ha ⟨t, b, hb⟩,
        hv.running, hv.work, hv.readings⟩

end InOne

/-- **A safe heap.** Every `free` so far was of a block in use that the same thread had allocated for
the record of the same client; each block was freed at most once. The pointers of a record in a queue
are `NULL` where the record says so and no two of them refer to the same block. Between two steps of
its thread they refer to blocks in use. A thread that has ended has none. -/
structure ServerHeapSafe {n : ℕ} (s : ServerHeap n) : Prop where
  legal : Legal (fun _ => none) s.calls
  once : ∀ l l' b owner, s.calls = l ++ .acquire b owner :: l' → ReleasedOnce s.blocks b owner l'
  records : ∀ t, s.running t →
    ∀ fd, (s.pointers t fd).MirrorsRecord (getConnectionByFd (s.threads t).worker.queue fd)
  distinct : ∀ t fd, (s.pointers t fd).blocks.Nodup
  inUse : ∀ t, s.work t = none → ∀ fd, ∀ b ∈ (s.pointers t fd).blocks, s.blocks b = some (t, fd)
  stopped : ∀ t, ¬ s.running t → ∀ fd, s.pointers t fd = .null

/-! ### The share of a thread -/

/-- A single thread with its heap that is the thread `t` with its share of the blocks when it has begun
its step, in which it has made some calls since. -/
structure ThreadHeap.Within {n : ℕ} (options : Options) (v : ThreadHeap) (made : List MemoryCall)
    (s : ServerHeap n) (t : Fin n) : Prop where
  accounted : v.Accounted
  thread : v.thread = s.threads t
  running : v.running = s.running t
  pointers : v.pointers = s.pointers t
  idle : s.work t = none → made = []
  busy : ∀ a calls, s.work t = some (a, calls) →
    made ++ memoryCalls calls = v.callsOf options a ∧ ∃ v', HeapStep options v a v'
  fresh : FreshNumbers v.blocks made
  blocks : share s.blocks t = after v.blocks made

/-- What holds of the threads and the heap. -/
structure ServerHeap.Accounted {n : ℕ} (options : Options) (s : ServerHeap n) : Prop where
  legal : Legal (fun _ => none) s.calls
  table : s.blocks = after (fun _ => none) s.calls
  threads : ∀ t, ∃ v made, ThreadHeap.Within options v made s t

section Shares

variable {n : ℕ} {options : Options} {s s' : ServerHeap n} {v : ThreadHeap} {t u : Fin n}
  {a : HeapAction} {act : ServerAction n} {made : List MemoryCall} {call : MemoryCall}
  {calls : List LibraryCall}

theorem ThreadHeap.within_init (n : ℕ) (clock : ℤ) (t : Fin n) :
    (ThreadHeap.init clock).Within options [] (.init n clock) t where
  accounted := ThreadHeap.accounted_init clock
  thread := rfl
  running := rfl
  pointers := rfl
  idle := fun _ => rfl
  busy := fun _ _ h => by cases h
  fresh := trivial
  blocks := rfl

theorem ServerHeap.accounted_init (n : ℕ) (clock : ℤ) :
    (ServerHeap.init n clock).Accounted options where
  legal := trivial
  table := rfl
  threads t := ⟨.init clock, [], ThreadHeap.within_init n clock t⟩

theorem ThreadHeap.Within.callsOf (hv : v.Within options made s t) (a : HeapAction) :
    memoryCalls (s.libraryCalls options t a) = v.callsOf options a := by
  cases a with
  | work action m =>
    rw [ServerHeap.libraryCalls, Worker.memoryCalls_libraryCalls, ThreadHeap.callsOf, hv.thread,
      hv.pointers]
  | shutdown => rw [ServerHeap.libraryCalls, memoryCalls_map, ThreadHeap.callsOf, hv.thread, hv.pointers]

theorem ThreadHeap.Within.steps {thread : Thread} {running : Bool} {pointers : ℕ → Pointers}
    (hv : v.Within options made s t) (hrunning : s.running t = true)
    (hafter : s.afterStep options t a = some (thread, running, pointers)) :
    HeapStep options v a ⟨thread, running, pointers, after v.blocks (v.callsOf options a),
      v.calls ++ v.callsOf options a⟩ := by
  unfold HeapStep ThreadHeap.next
  simp only
  rw [if_pos (hv.running.trans hrunning)]
  cases a with
  | work action m =>
    obtain ⟨thread', hthread, heq⟩ := Option.map_eq_some_iff.mp hafter
    obtain ⟨rfl, rfl, rfl⟩ := Prod.mk.inj heq
    simp only
    rw [hv.thread, hthread, hv.pointers]
    rfl
  | shutdown =>
    unfold ServerHeap.afterStep at hafter
    simp only at hafter
    split at hafter
    · rename_i hphase
      obtain ⟨rfl, rfl, rfl⟩ := Prod.mk.inj (Option.some.inj hafter)
      simp only
      rw [hv.thread, hphase]
    · cases hafter

theorem ThreadHeap.Within.allowed (hv : v.Within options made s t)
    (hwork : s.work t = some (a, .memory call :: calls)) (hfresh : (call.of t).FreshNumbers s.blocks) :
    FreshNumbers v.blocks (made ++ [call]) ∧ (call.of t).Allowed s.blocks := by
  obtain ⟨hcalls, v', hstep⟩ := hv.busy a _ hwork
  have hnew : FreshNumbers v.blocks (made ++ [call]) := by
    refine freshNumbers_append.mpr ⟨hv.fresh, ?_, trivial⟩
    rw [← hv.blocks]
    exact Call.FreshNumbers.share hfresh
  have hmade : made ++ [call] <+: v.callsOf options a := by
    refine ⟨memoryCalls calls, ?_⟩
    rw [← hcalls, memoryCalls_memory, List.append_assoc, List.singleton_append]
  obtain ⟨lost, hlost⟩ := hv.accounted
  have hlegal := legal_append.mp (hlost.legal_prefix hstep hmade hnew)
  refine ⟨hnew, Call.Allowed.of_share ?_ hfresh⟩
  rw [hv.blocks]
  exact hlegal.2.1

/-! ### A step and the shares -/

theorem ServerHeap.Stepped.others (h : s.Stepped options act s') (hne : u ≠ act.thread) :
    s'.threads u = s.threads u ∧ s'.running u = s.running u ∧ s'.pointers u = s.pointers u ∧
      s'.work u = s.work u := by
  cases h with
  | started t a after hrunning hwork hafter =>
    exact ⟨rfl, rfl, rfl, Function.update_of_ne hne ..⟩
  | memory t a call calls hwork => exact ⟨rfl, rfl, rfl, Function.update_of_ne hne ..⟩
  | strtok t a turn calls strtok hwork => exact ⟨rfl, rfl, rfl, Function.update_of_ne hne ..⟩
  | finished t a thread running pointers hwork hafter =>
    exact ⟨Function.update_of_ne hne .., Function.update_of_ne hne .., Function.update_of_ne hne ..,
      Function.update_of_ne hne ..⟩

theorem ServerHeap.Stepped.allowed (h : s.Stepped options act s') (hfresh : s.MallocFresh act)
    (hs : s.Accounted options) :
    s'.blocks = s.blocks ∧ s'.calls = s.calls ∨
      ∃ call : MemoryCall, (call.of act.thread).Allowed s.blocks ∧
        s'.blocks = (call.of act.thread).after s.blocks ∧
        s'.calls = s.calls ++ [call.of act.thread] := by
  cases h with
  | memory t a call calls hwork =>
    obtain ⟨v, made, hv⟩ := hs.threads t
    unfold ServerHeap.MallocFresh at hfresh
    simp only [hwork] at hfresh
    exact Or.inr ⟨call, (hv.allowed hwork hfresh).2, rfl, rfl⟩
  | _ => exact Or.inl ⟨rfl, rfl⟩

theorem ThreadHeap.Within.others (h : s.Stepped options act s') (hfresh : s.MallocFresh act)
    (hs : s.Accounted options) (hne : t ≠ act.thread) (hv : v.Within options made s t) :
    v.Within options made s' t := by
  obtain ⟨hthread, hrunning, hpointers, hwork⟩ := h.others hne
  refine ⟨hv.accounted, hv.thread.trans hthread.symm, hv.running.trans hrunning.symm,
    hv.pointers.trans hpointers.symm, fun h => hv.idle (hwork ▸ h),
    fun a calls h => hv.busy a calls (hwork ▸ h), hv.fresh, ?_⟩
  rw [← hv.blocks]
  rcases h.allowed hfresh hs with ⟨hblocks, -⟩ | ⟨call, hallowed, hblocks, -⟩
  · rw [hblocks]
  · rw [hblocks]
    exact Call.Allowed.share_others hallowed hne

/-- A thread in a step, with the calls that it has made and those to come. -/
theorem ThreadHeap.Within.goesOn {made' : List MemoryCall} (hv : v.Within options made s t)
    (hthread : s'.threads t = s.threads t) (hrunning : s'.running t = s.running t)
    (hpointers : s'.pointers t = s.pointers t) (hwork : s'.work t = some (a, calls))
    (hcalls : made' ++ memoryCalls calls = v.callsOf options a) (hstep : ∃ v', HeapStep options v a v')
    (hfresh : FreshNumbers v.blocks made') (hblocks : share s'.blocks t = after v.blocks made') :
    v.Within options made' s' t where
  accounted := hv.accounted
  thread := hv.thread.trans hthread.symm
  running := hv.running.trans hrunning.symm
  pointers := hv.pointers.trans hpointers.symm
  idle := by
    intro hnone
    rw [hwork] at hnone
    cases hnone
  busy := by
    intro a' calls' hsome
    obtain ⟨rfl, rfl⟩ := Prod.mk.inj (Option.some.inj (hwork.symm.trans hsome))
    exact ⟨hcalls, hstep⟩
  fresh := hfresh
  blocks := hblocks

theorem ServerHeap.finish_self (s : ServerHeap n) (t : Fin n) (thread : Thread) (running : Bool)
    (pointers : ℕ → Pointers) :
    (s.finish t thread running pointers).threads t = thread ∧
      (s.finish t thread running pointers).running t = running ∧
      (s.finish t thread running pointers).pointers t = pointers ∧
      (s.finish t thread running pointers).work t = none := by
  simp [ServerHeap.finish]

theorem ThreadHeap.Within.finished {thread : Thread} {running : Bool} {pointers : ℕ → Pointers}
    (hv : v.Within options made s t) (hwork : s.work t = some (a, []))
    (hafter : s.afterStep options t a = some (thread, running, pointers)) :
    ∃ v', ThreadHeap.Within options v' [] (s.finish t thread running pointers) t ∧
      ((∃ b, v'.Leaked b) ↔ (∃ b, v.Leaked b) ∨ v.Reparses a) := by
  obtain ⟨hcalls, v', hstep'⟩ := hv.busy a _ hwork
  rw [memoryCalls_nil, List.append_nil] at hcalls
  have hfresh : v.MallocsFresh options a := by
    unfold ThreadHeap.MallocsFresh
    rw [← hcalls]
    exact hv.fresh
  have hstep := hv.steps (hv.running.symm.trans (ThreadHeap.running_of_step hstep')) hafter
  obtain ⟨hthread, hrunning, hpointers, hidle⟩ := s.finish_self t thread running pointers
  refine ⟨_, ⟨accounted_step _ _ _ hstep hfresh hv.accounted, hthread.symm, hrunning.symm,
    hpointers.symm, fun _ => rfl, fun a calls hsome => ?_, trivial, ?_⟩,
    leaked_step _ _ _ hstep hfresh hv.accounted⟩
  · rw [hidle] at hsome
    cases hsome
  · show share s.blocks t = after v.blocks _
    rw [hv.blocks, hcalls]

/-- The share of the thread that makes the step, which loses a block when the thread is done with a
step that has parsed a request again. -/
theorem ThreadHeap.Within.self (h : s.Stepped options act s') (hfresh : s.MallocFresh act)
    (ht : act.thread = t) (hv : v.Within options made s t) :
    ∃ v' made', ThreadHeap.Within options v' made' s' t ∧
      ((∃ b, v'.Leaked b) ↔ (∃ b, v.Leaked b) ∨ s.Reparses act) := by
  cases h with
  | started t' a after hrunning hwork hafter =>
    obtain rfl : t' = t := ht
    have hmade := hv.idle hwork
    refine ⟨v, [], hv.goesOn rfl rfl rfl (Function.update_self ..) (hv.callsOf a)
      ⟨_, hv.steps hrunning hafter⟩ trivial ?_, (or_iff_left id).symm⟩
    exact hv.blocks.trans (by rw [hmade])
  | memory t' a call calls hwork =>
    obtain rfl : t' = t := ht
    unfold ServerHeap.MallocFresh at hfresh
    simp only [hwork] at hfresh
    obtain ⟨hcalls, hstep⟩ := hv.busy a _ hwork
    refine ⟨v, made ++ [call], hv.goesOn rfl rfl rfl (Function.update_self ..) ?_ hstep
      (hv.allowed hwork hfresh).1 ?_, (or_iff_left id).symm⟩
    · rw [← hcalls, memoryCalls_memory, List.append_assoc, List.singleton_append]
    · show share ((call.of t').after s.blocks) t' = _
      rw [Call.share_after, hv.blocks, after_append]
      rfl
  | strtok t' a turn calls strtok hwork =>
    obtain rfl : t' = t := ht
    obtain ⟨hcalls, hstep⟩ := hv.busy a _ hwork
    exact ⟨v, made, hv.goesOn rfl rfl rfl (Function.update_self ..) hcalls hstep hv.fresh hv.blocks,
      (or_iff_left id).symm⟩
  | finished t' a thread running pointers hwork hafter =>
    obtain rfl : t' = t := ht
    obtain ⟨v', hv', hleaked⟩ := hv.finished hwork hafter
    refine ⟨v', [], hv', hleaked.trans (or_congr_right ?_)⟩
    unfold ThreadHeap.Reparses ServerHeap.Reparses
    simp only [hwork]
    cases a with
    | work action m => simp [hv.thread]
    | shutdown => simp

theorem ServerHeap.accounted_step (h : ServerStep options s act s') (hfresh : s.MallocFresh act)
    (hs : s.Accounted options) : s'.Accounted options := by
  have hstepped := ServerHeap.step_cases options s h
  refine ⟨?_, ?_, fun t => ?_⟩
  · rcases hstepped.allowed hfresh hs with ⟨-, hcalls⟩ | ⟨call, hallowed, -, hcalls⟩
    · rw [hcalls]
      exact hs.legal
    · rw [hcalls]
      exact legal_append.mpr ⟨hs.legal, hs.table ▸ hallowed, trivial⟩
  · rcases hstepped.allowed hfresh hs with ⟨hblocks, hcalls⟩ | ⟨call, -, hblocks, hcalls⟩
    · rw [hblocks, hcalls, hs.table]
    · rw [hblocks, hcalls, after_append, ← hs.table]
      rfl
  · obtain ⟨v, made, hv⟩ := hs.threads t
    by_cases ht : act.thread = t
    · obtain ⟨v', made', hv', -⟩ := hv.self hstepped hfresh ht
      exact ⟨v', made', hv'⟩
    · exact ⟨v, made, hv.others hstepped hfresh hs (Ne.symm ht)⟩

end Shares

section Runs

variable {n : ℕ} {options : Options} {clock : ℤ} {s : ServerHeap n}
  {h : List (Transition (ServerHeap n) (ServerAction n))}

theorem ServerHeap.accounted_run (hrun : Run (ServerStep options) (.init n clock) h s)
    (hfresh : Guarded ServerHeap.MallocFresh h) : s.Accounted options :=
  hrun.invariant_of_guard (ServerHeap.accounted_init n clock)
    (fun _ _ _ => ServerHeap.accounted_step) hfresh

/-- The share of each thread at the end of a run, and whether the thread has lost a block. -/
theorem ServerHeap.within_run (hrun : Run (ServerStep options) (.init n clock) h s)
    (hfresh : Guarded ServerHeap.MallocFresh h) (t : Fin n) :
    ∃ v made, ThreadHeap.Within options v made s t ∧
      ((∃ b, v.Leaked b) ↔ ∃ e ∈ h, e.act.thread = t ∧ e.pre.Reparses e.act) := by
  induction hrun with
  | nil =>
    refine ⟨.init clock, [], ThreadHeap.within_init n clock t, iff_of_false ?_ (by simp)⟩
    rintro ⟨b, fd, hb, -⟩
    cases hb
  | @snoc h s s' act hrun hst ih =>
    obtain ⟨hfresh, hnow⟩ := guarded_snoc.mp hfresh
    obtain ⟨v, made, hv, hleaked⟩ := ih hfresh
    have hs := ServerHeap.accounted_run hrun hfresh
    have hstepped := ServerHeap.step_cases options s hst
    by_cases ht : act.thread = t
    · obtain ⟨v', made', hv', hlost⟩ := hv.self hstepped hnow ht
      refine ⟨v', made', hv', ?_⟩
      rw [hlost, hleaked]
      simp [or_and_right, exists_or, ht]
    · refine ⟨v, made, hv.others hstepped hnow hs (Ne.symm ht), hleaked.trans ?_⟩
      simp [or_and_right, exists_or, ht]

end Runs

/-! ### Two threads on one heap -/

/-- Steps of a thread with the numbers of their calls, none of which another thread comes between. -/
def heapSteps (t : Fin 2) (actions : List HeapAction) (calls : List ℕ) : List (ServerAction 2) :=
  (actions.zip calls).flatMap fun (a, k) => .starts t a :: (List.replicate k (.call t) ++ [.done t])

/-- The second thread comes to its request when the first frees the record of the one that it has
answered: it gets the block of the path at once, and goes on when the first thread is done. -/
def pathReused : List (ServerAction 2) :=
  heapSteps firstThread ((goesToWait 0 ++ receivesRequest 0 5 ++ (sendsResponse 0).take 3).map
      (.work · (mallocsFrom 100))) [0, 0, 0, 1, 0, 0, 11, 0, 0, 0] ++
    heapSteps secondThread ((goesToWait 0 ++ (receivesRequest 0 6).take 4).map
      (.work · (mallocsFrom 200))) [0, 0, 0, 1, 0, 0] ++
    [.starts firstThread (.work (.call (localSys 0)) (mallocsFrom 100)), .call firstThread,
      .starts secondThread (.work (.call (localSys 0)) { mallocsFrom 200 with path := 101 }),
      .call secondThread, .call secondThread, .call secondThread] ++
    List.replicate 7 (.call firstThread) ++ [.done firstThread] ++
    List.replicate 8 (.call secondThread) ++ [.done secondThread]

/-- One thread parses a request twice and ends, and the other ends as well. -/
def bareRequestOfTwo : List (ServerAction 2) :=
  heapSteps firstThread bareRequestBlocked [0, 0, 0, 1, 0, 0, 3, 0, 2, 0, 4, 0, 0, 0] ++
    heapSteps secondThread [.shutdown] [0]

end UbServer

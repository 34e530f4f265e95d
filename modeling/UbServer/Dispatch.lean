import UbServer.Response
import UbServer.Queue.Index

/-!
# The event loop of one client

The `do .. while (repeat)` loop that `handleEpoll` runs for an event of a client, in steps of at most
one system call on the client's descriptor.

* `Pc`: where the loop stands; the state of the connection is in its record.
* `Sys`: what the outside answers during one step.
* `EventLoop.step`: one step; `none` is `die` or undefined behaviour.
* `EventLoop.step_cases`: everything a step can do to the queue.
-/

namespace UbServer

open QueueConnectionsType

/-- Before the `switch`, in the loop of `recvRequest`, `sendResponseHeaders`, `sendResponseFile` or
`sendAll`, or after the last turn. -/
inductive Pc where
  | switch
  | recv
  | sendHeaders
  | sendBody
  | sendAll (buffer : Bytes) (leftToWrite : ℕ)
  | ended
  deriving DecidableEq

/-- What happens on the client's descriptor. -/
inductive Effect where
  | received (bytes : Bytes)
  | sent (bytes : Bytes)
  | logged
  | rearmed
  | closed
  deriving DecidableEq

/-- What the outside answers: the clock, a `malloc`ed block, `recv`, `send` or `sendfile`, what
`processRequest` and `makeResponse` ask for, and the file that `bodyFd` refers to. -/
structure Sys where
  now : ℤ
  mem : RequestBlock
  recv : RecvResult
  send : SendResult
  request : RequestEnv
  response : ResponseEnv
  disk : Disk
  bodyFile : Bytes

/-- The loop for one event, with the slot that the pointer `connection` refers to and the calls made
on the descriptor so far. -/
structure EventLoop where
  clientFd : ℕ
  slot : ℕ
  pc : Pc
  effects : List Effect
  deriving DecidableEq

/-- The loop at its start. -/
def EventLoop.start (clientFd slot : ℕ) : EventLoop := ⟨clientFd, slot, .switch, []⟩

/-- The loop further on. -/
def EventLoop.goto (e : EventLoop) (pc : Pc) (effects : List Effect) : EventLoop :=
  { e with pc := pc, effects := e.effects ++ effects }

theorem EventLoop.goto_newEffects (e : EventLoop) (pc : Pc) (effects : List Effect) :
    (e.goto pc effects).effects.drop e.effects.length = effects := by
  simp [EventLoop.goto]

section Steps

variable (options : Options) (q : QueueConnectionsType) (e : EventLoop) (sys : Sys)

/-- Write the record back and go on. -/
def EventLoop.continue (connection : QueueConnectionElementType) (pc : Pc) (effects : List Effect) :
    QueueConnectionsType × EventLoop :=
  (q.setConnection e.slot connection, e.goto pc effects)

/-- `logRequest`, then `STATE_CONNECTION_DONE_FOR_CLOSE`. -/
def EventLoop.logAndClose (connection : QueueConnectionElementType) :
    QueueConnectionsType × EventLoop :=
  e.continue q { connection with state := .doneForClose } .switch [.logged]

/-- `makeResponse` if there is no response yet, then `sendResponseHeaders`. -/
def EventLoop.respond (connection : QueueConnectionElementType) :
    Option (QueueConnectionsType × EventLoop) :=
  if connection.responseBufferHeaders = none then
    (makeResponse options sys.response sys.disk connection).map fun built =>
      e.continue q built.connection .sendHeaders []
  else some (e.continue q connection .sendHeaders [])

/-- A fixed response with `sendAll`. -/
def EventLoop.answer (connection : QueueConnectionElementType) (buffer : Bytes) :
    QueueConnectionsType × EventLoop :=
  e.continue q connection (.sendAll buffer buffer.length) []

/-- `case STATE_CONNECTION_SEND_HEADERS`. -/
def EventLoop.sendHeadersCase (connection : QueueConnectionElementType) :
    Option (QueueConnectionsType × EventLoop) :=
  if connection.requestHeaders = [] then
    (processRequest options sys.request connection).bind fun (isValidRequest, connection) =>
      if ¬ isValidRequest then some (e.answer q connection badRequestResponseTemplate)
      else if ¬ supportedProtocol connection.protocolVersion then
        some (e.answer q connection (unsupportedProtocolResponse connection.protocolVersion))
      else if isHello connection.path then some (e.answer q connection helloResponseTemplate)
      else e.respond options q sys connection
  else e.respond options q sys connection

/-- `case STATE_CONNECTION_DONE`. -/
def EventLoop.doneCase (connection : QueueConnectionElementType) :
    Option (QueueConnectionsType × EventLoop) :=
  if connection.keepAlive then
    if existsConnection q e.clientFd then
      (updateQueueConnection q e.clientFd sys.now sys.mem).map fun q =>
        (q, e.goto .ended [.logged, .rearmed])
    else some (q, e.goto .ended [.logged])
  else some (e.logAndClose q connection)

/-- `case STATE_CONNECTION_DONE_FOR_CLOSE`. -/
def EventLoop.closeCase : QueueConnectionsType × EventLoop :=
  if existsConnection q e.clientFd then
    (dequeueConnectionByFd q e.clientFd, e.goto .ended [.closed])
  else (q, e.goto .ended [])

/-- The bytes as an effect, if there are any. -/
def effectOf (effect : Bytes → Effect) (bytes : Bytes) : List Effect :=
  if bytes = [] then [] else [effect bytes]

/-- The bytes that a turn of `recvRequest` receives. -/
def receivedBytes (connection : QueueConnectionElementType) : RecvResult → Bytes
  | .data bytes => bytes.take (connection.requestBufferLength - connection.requestBufferOffset)
  | _ => []

/-- One step of the loop. -/
def EventLoop.step : Option (QueueConnectionsType × EventLoop) :=
  let connection := q.connections e.slot
  match e.pc with
  | .switch =>
    match connection.state with
    | .recv => some (e.continue q connection .recv [])
    | .sendHeaders => e.sendHeadersCase options q sys connection
    | .sendBody =>
      if connection.bodyFd = -1 then
        some (e.continue q { connection with state := .done, bodyOffset := 0 } .switch [])
      else some (e.continue q connection .sendBody [])
    | .done => e.doneCase q sys connection
    | .doneForClose => some (e.closeCase q)
  | .recv =>
    (recvRequestTurn connection sys.recv).map fun (c, repeats) =>
      e.continue q c (if repeats then .recv else .switch)
        (effectOf .received (receivedBytes connection sys.recv))
  | .sendHeaders =>
    (sendResponseHeadersTurn connection sys.send).map fun turn =>
      e.continue q turn.connection (if turn.repeats then .sendHeaders else .switch)
        (effectOf .sent turn.accepted)
  | .sendBody =>
    let turn := sendResponseFileTurn connection sys.bodyFile sys.send
    some (e.continue q turn.connection (if turn.repeats then .sendBody else .switch)
      (effectOf .sent turn.accepted))
  | .sendAll buffer leftToWrite =>
    if leftToWrite = 0 then some (e.logAndClose q connection)
    else
      match sendAllTurn buffer leftToWrite sys.send with
      | (accepted, some leftToWrite) =>
        some (e.continue q connection (.sendAll buffer leftToWrite) (effectOf .sent accepted))
      | (_, none) => some (e.logAndClose q connection)
  | .ended => none

end Steps

/-! ### The step in each place -/

section Places

variable {options : Options} {q q' : QueueConnectionsType} {e e' : EventLoop} {sys : Sys}
  {c : QueueConnectionElementType}

theorem EventLoop.step_switch_recv (hpc : e.pc = .switch)
    (hstate : (q.connections e.slot).state = .recv) :
    e.step options q sys = some (e.continue q (q.connections e.slot) .recv []) := by
  simp only [EventLoop.step, hpc, hstate]

theorem EventLoop.step_switch_sendHeaders (hpc : e.pc = .switch)
    (hstate : (q.connections e.slot).state = .sendHeaders) :
    e.step options q sys = e.sendHeadersCase options q sys (q.connections e.slot) := by
  simp only [EventLoop.step, hpc, hstate]

theorem EventLoop.step_switch_noBody (hpc : e.pc = .switch)
    (hstate : (q.connections e.slot).state = .sendBody) (hfd : (q.connections e.slot).bodyFd = -1) :
    e.step options q sys = some (e.continue q
      { q.connections e.slot with state := .done, bodyOffset := 0 } .switch []) := by
  simp only [EventLoop.step, hpc, hstate, if_pos hfd]

theorem EventLoop.step_switch_sendBody (hpc : e.pc = .switch)
    (hstate : (q.connections e.slot).state = .sendBody) (hfd : (q.connections e.slot).bodyFd ≠ -1) :
    e.step options q sys = some (e.continue q (q.connections e.slot) .sendBody []) := by
  simp only [EventLoop.step, hpc, hstate, if_neg hfd]

theorem EventLoop.step_switch_done (hpc : e.pc = .switch)
    (hstate : (q.connections e.slot).state = .done) :
    e.step options q sys = e.doneCase q sys (q.connections e.slot) := by
  simp only [EventLoop.step, hpc, hstate]

theorem EventLoop.step_switch_doneForClose (hpc : e.pc = .switch)
    (hstate : (q.connections e.slot).state = .doneForClose) :
    e.step options q sys = some (e.closeCase q) := by
  simp only [EventLoop.step, hpc, hstate]

theorem EventLoop.step_recv (hpc : e.pc = .recv) :
    e.step options q sys = (recvRequestTurn (q.connections e.slot) sys.recv).map fun turn =>
      e.continue q turn.1 (if turn.2 then .recv else .switch)
        (effectOf .received (receivedBytes (q.connections e.slot) sys.recv)) := by
  simp only [EventLoop.step, hpc]

theorem EventLoop.step_sendHeaders (hpc : e.pc = .sendHeaders) :
    e.step options q sys = (sendResponseHeadersTurn (q.connections e.slot) sys.send).map fun turn =>
      e.continue q turn.connection (if turn.repeats then .sendHeaders else .switch)
        (effectOf .sent turn.accepted) := by
  simp only [EventLoop.step, hpc]

theorem EventLoop.step_sendBody (hpc : e.pc = .sendBody) :
    e.step options q sys =
      let turn := sendResponseFileTurn (q.connections e.slot) sys.bodyFile sys.send
      some (e.continue q turn.connection (if turn.repeats then .sendBody else .switch)
        (effectOf .sent turn.accepted)) := by
  simp only [EventLoop.step, hpc]

theorem EventLoop.step_of_ended (hpc : e.pc = .ended) : e.step options q sys = none := by
  simp only [EventLoop.step, hpc]

theorem EventLoop.doneCase_cases (h : e.doneCase q sys c = some (q', e')) :
    (c.keepAlive ∧ existsConnection q e.clientFd ∧
      updateQueueConnection q e.clientFd sys.now sys.mem = some q' ∧
      e' = e.goto .ended [.logged, .rearmed]) ∨
    (c.keepAlive ∧ ¬ existsConnection q e.clientFd ∧ q' = q ∧ e' = e.goto .ended [.logged]) ∨
    (¬ c.keepAlive ∧ (q', e') = e.logAndClose q c) := by
  unfold EventLoop.doneCase at h
  split at h
  · rename_i hkeep
    split at h
    · rename_i hexists
      obtain ⟨q'', hupdate, h⟩ := Option.map_eq_some_iff.mp h
      obtain ⟨rfl, rfl⟩ := Prod.mk.inj h
      exact Or.inl ⟨hkeep, hexists, hupdate, rfl⟩
    · rename_i hexists
      obtain ⟨rfl, rfl⟩ := Prod.mk.inj (Option.some.inj h)
      exact Or.inr (Or.inl ⟨hkeep, hexists, rfl, rfl⟩)
  · exact Or.inr (Or.inr ⟨‹_›, (Option.some.inj h).symm⟩)

theorem EventLoop.closeCase_cases (h : e.closeCase q = (q', e')) :
    (existsConnection q e.clientFd ∧ q' = dequeueConnectionByFd q e.clientFd ∧
      e' = e.goto .ended [.closed]) ∨
    (¬ existsConnection q e.clientFd ∧ q' = q ∧ e' = e.goto .ended []) := by
  unfold EventLoop.closeCase at h
  split at h <;> obtain ⟨rfl, rfl⟩ := Prod.mk.inj h
  · exact Or.inl ⟨‹_›, rfl, rfl⟩
  · exact Or.inr ⟨‹_›, rfl, rfl⟩

end Places

/-! ### What the parts of a step keep -/

/-- The record is for the same client and stamped with the same time. -/
def SameClient (c c' : QueueConnectionElementType) : Prop :=
  c'.clientFd = c.clientFd ∧ c'.priorityTime = c.priorityTime

section Keeps

variable {options : Options} {c c' : QueueConnectionElementType} {repeats : Bool}

theorem SameClient.refl (c : QueueConnectionElementType) : SameClient c c := ⟨rfl, rfl⟩

theorem SameClient.trans {c'' : QueueConnectionElementType} (h : SameClient c c')
    (h' : SameClient c' c'') : SameClient c c'' :=
  ⟨h'.1.trans h.1, h'.2.trans h.2⟩

theorem recvRequestTurn_inv {r : RecvResult} (h : recvRequestTurn c r = some (c', repeats)) :
    ∃ buffer offset state, (repeats = true → state = c.state) ∧
      c' = { c with requestBuffer := buffer, requestBufferOffset := offset, state := state } := by
  have hfinish : ∀ {c₀ c₁ : QueueConnectionElementType} {block : Bytes},
      finishRequest c₀ block = some c₁ → ∃ buffer offset state,
        c₁ = { c₀ with requestBuffer := buffer, requestBufferOffset := offset, state := state } := by
    intro c₀ c₁ block hc₁
    unfold finishRequest at hc₁
    split at hc₁
    · exact ⟨_, _, _, (Option.some.inj hc₁).symm⟩
    · cases hc₁
  unfold recvRequestTurn at h
  obtain ⟨buffer, hb, h⟩ := Option.bind_eq_some_iff.mp h
  cases r with
  | eintr =>
    obtain ⟨rfl, rfl⟩ := Prod.mk.inj (Option.some.inj h)
    exact ⟨c.requestBuffer, c.requestBufferOffset, c.state, fun _ => rfl, rfl⟩
  | eagain =>
    obtain ⟨complete, hcomplete, h⟩ := Option.bind_eq_some_iff.mp h
    cases complete with
    | true =>
      obtain ⟨c₁, hc₁, h⟩ := Option.bind_eq_some_iff.mp h
      obtain ⟨rfl, rfl⟩ := Prod.mk.inj (Option.some.inj h)
      obtain ⟨block, offset, state, rfl⟩ := hfinish hc₁
      exact ⟨block, offset, state, nofun, rfl⟩
    | false =>
      obtain ⟨rfl, rfl⟩ := Prod.mk.inj (Option.some.inj h)
      exact ⟨c.requestBuffer, c.requestBufferOffset, c.state, fun _ => rfl, rfl⟩
  | error =>
    obtain ⟨rfl, rfl⟩ := Prod.mk.inj (Option.some.inj h)
    exact ⟨c.requestBuffer, c.requestBufferOffset, .doneForClose, nofun, rfl⟩
  | data bytes =>
    simp only at h
    split at h
    · obtain ⟨rfl, rfl⟩ := Prod.mk.inj (Option.some.inj h)
      exact ⟨c.requestBuffer, c.requestBufferOffset, .doneForClose, nofun, rfl⟩
    · obtain ⟨complete, hcomplete, h⟩ := Option.bind_eq_some_iff.mp h
      cases complete with
      | true =>
        obtain ⟨c₁, hc₁, h⟩ := Option.bind_eq_some_iff.mp h
        obtain ⟨rfl, rfl⟩ := Prod.mk.inj (Option.some.inj h)
        obtain ⟨block, offset, state, rfl⟩ := hfinish hc₁
        exact ⟨block, offset, state, nofun, rfl⟩
      | false =>
        obtain ⟨rfl, rfl⟩ := Prod.mk.inj (Option.some.inj h)
        exact ⟨_, _, c.state, fun _ => rfl, rfl⟩

theorem recvRequestTurn_keeps {r : RecvResult} (h : recvRequestTurn c r = some (c', repeats)) :
    SameClient c c' ∧ (repeats = true → c'.state = c.state) := by
  obtain ⟨buffer, offset, state, hstate, rfl⟩ := recvRequestTurn_inv h
  exact ⟨⟨rfl, rfl⟩, hstate⟩

/-- What a turn of `sendResponseHeaders` can do. -/
inductive HeadersTurned (headers : Bytes) (c : QueueConnectionElementType) :
    SendResult → SendTurn → Prop
  | eintr : HeadersTurned headers c .eintr ⟨c, [], true⟩
  | allSent : c.responseBufferHeadersOffset = c.responseBufferHeadersLength →
      HeadersTurned headers c .eagain
        ⟨{ c with state := .sendBody, responseBufferHeadersOffset := 0 }, [], false⟩
  | blocked : c.responseBufferHeadersOffset ≠ c.responseBufferHeadersLength →
      HeadersTurned headers c .eagain ⟨c, [], false⟩
  | error : HeadersTurned headers c .error ⟨{ c with state := .doneForClose }, [], false⟩
  | disconnected (count : ℕ) :
      min count (sizeSub c.responseBufferHeadersLength c.responseBufferHeadersOffset) = 0 →
      HeadersTurned headers c (.sent count) ⟨{ c with state := .doneForClose }, [], false⟩
  | sentAll (count bytesSend : ℕ) :
      bytesSend =
        min count (sizeSub c.responseBufferHeadersLength c.responseBufferHeadersOffset) →
      bytesSend ≠ 0 → c.responseBufferHeadersOffset + bytesSend = c.responseBufferHeadersLength →
      HeadersTurned headers c (.sent count)
        ⟨{ c with state := .sendBody, responseBufferHeadersOffset := 0 },
          (headers.drop c.responseBufferHeadersOffset).take bytesSend, false⟩
  | sentPart (count bytesSend : ℕ) :
      bytesSend =
        min count (sizeSub c.responseBufferHeadersLength c.responseBufferHeadersOffset) →
      bytesSend ≠ 0 → c.responseBufferHeadersOffset + bytesSend ≠ c.responseBufferHeadersLength →
      HeadersTurned headers c (.sent count)
        ⟨{ c with responseBufferHeadersOffset := c.responseBufferHeadersOffset + bytesSend },
          (headers.drop c.responseBufferHeadersOffset).take bytesSend, true⟩

/-- **The cases of a turn of `sendResponseHeaders`.** -/
theorem sendResponseHeadersTurn_cases {r : SendResult} {turn : SendTurn}
    (h : sendResponseHeadersTurn c r = some turn) :
    ∃ headers, c.responseBufferHeaders = some headers ∧ HeadersTurned headers c r turn := by
  unfold sendResponseHeadersTurn at h
  obtain ⟨headers, hheaders, h⟩ := Option.bind_eq_some_iff.mp h
  refine ⟨headers, hheaders, ?_⟩
  cases r with
  | eintr =>
    obtain rfl := Option.some.inj h
    exact .eintr
  | eagain =>
    simp only at h
    split at h <;> obtain rfl := Option.some.inj h
    · exact .allSent ‹_›
    · exact .blocked ‹_›
  | error =>
    obtain rfl := Option.some.inj h
    exact .error
  | sent count =>
    simp only at h
    split at h
    · cases h
    · split at h
      · rename_i hzero
        obtain rfl := Option.some.inj h
        rw [hzero, List.take_zero]
        exact .disconnected count hzero
      · split at h <;> obtain rfl := Option.some.inj h
        · exact .sentAll count _ rfl ‹_› ‹_›
        · exact .sentPart count _ rfl ‹_› ‹_›

theorem sendResponseHeadersTurn_inv {r : SendResult} {turn : SendTurn}
    (h : sendResponseHeadersTurn c r = some turn) :
    ∃ offset state, (turn.repeats = true → state = c.state) ∧
      turn.connection = { c with responseBufferHeadersOffset := offset, state := state } := by
  obtain ⟨headers, -, hturned⟩ := sendResponseHeadersTurn_cases h
  cases hturned with
  | eintr => exact ⟨c.responseBufferHeadersOffset, c.state, fun _ => rfl, rfl⟩
  | allSent => exact ⟨0, .sendBody, nofun, rfl⟩
  | blocked => exact ⟨c.responseBufferHeadersOffset, c.state, nofun, rfl⟩
  | error => exact ⟨c.responseBufferHeadersOffset, .doneForClose, nofun, rfl⟩
  | disconnected => exact ⟨c.responseBufferHeadersOffset, .doneForClose, nofun, rfl⟩
  | sentAll => exact ⟨0, .sendBody, nofun, rfl⟩
  | sentPart => exact ⟨_, c.state, fun _ => rfl, rfl⟩

theorem sendResponseHeadersTurn_keeps {r : SendResult} {turn : SendTurn}
    (h : sendResponseHeadersTurn c r = some turn) :
    SameClient c turn.connection ∧ (turn.repeats = true → turn.connection.state = c.state) := by
  obtain ⟨offset, state, hstate, hturn⟩ := sendResponseHeadersTurn_inv h
  rw [hturn]
  exact ⟨⟨rfl, rfl⟩, hstate⟩

theorem sendResponseFileTurn_inv (c : QueueConnectionElementType) (bodyFile : Bytes)
    (r : SendResult) :
    ∃ offset fd state, (state = c.state ∨ state = .done ∨ state = .doneForClose) ∧
      (sendResponseFileTurn c bodyFile r).connection =
        { c with bodyOffset := offset, bodyFd := fd, state := state } := by
  unfold sendResponseFileTurn
  cases r with
  | eintr => exact ⟨_, _, _, Or.inl rfl, rfl⟩
  | error => exact ⟨_, _, _, Or.inr (Or.inr rfl), rfl⟩
  | eagain =>
    simp only
    split
    · exact ⟨_, _, _, Or.inr (Or.inl rfl), rfl⟩
    · exact ⟨_, _, _, Or.inl rfl, rfl⟩
  | sent count =>
    simp only
    split
    · exact ⟨_, _, _, Or.inr (Or.inr rfl), rfl⟩
    · split
      · exact ⟨_, _, _, Or.inr (Or.inl rfl), rfl⟩
      · exact ⟨_, _, _, Or.inl rfl, rfl⟩

theorem sendResponseFileTurn_keeps (c : QueueConnectionElementType) (bodyFile : Bytes)
    (r : SendResult) :
    SameClient c (sendResponseFileTurn c bodyFile r).connection ∧
      ((sendResponseFileTurn c bodyFile r).repeats = true →
        (sendResponseFileTurn c bodyFile r).connection.state = c.state) := by
  cases r with
  | eintr => exact ⟨.refl c, fun _ => rfl⟩
  | eagain =>
    simp only [sendResponseFileTurn]
    split
    · exact ⟨⟨rfl, rfl⟩, nofun⟩
    · exact ⟨⟨rfl, rfl⟩, nofun⟩
  | error => exact ⟨⟨rfl, rfl⟩, nofun⟩
  | sent count =>
    simp only [sendResponseFileTurn]
    split
    · exact ⟨⟨rfl, rfl⟩, nofun⟩
    · split
      · exact ⟨⟨rfl, rfl⟩, nofun⟩
      · exact ⟨⟨rfl, rfl⟩, fun _ => rfl⟩

theorem processRequest_inv {env : RequestEnv} {valid : Bool}
    (h : processRequest options env c = some (valid, c')) :
    ∃ scheme ip path method protocolVersion absolutePath requestBody requestHeaders,
      c' = { c with
        scheme := scheme
        ip := ip
        path := path
        method := method
        protocolVersion := protocolVersion
        absolutePath := absolutePath
        requestBody := requestBody
        requestHeaders := requestHeaders } := by
  unfold processRequest at h
  obtain ⟨buffer, -, h⟩ := Option.bind_eq_some_iff.mp h
  simp only at h
  split at h
  · obtain ⟨rfl, rfl⟩ := Prod.mk.inj (Option.some.inj h)
    exact ⟨_, _, _, _, _, _, _, _, rfl⟩
  · split at h
    · obtain ⟨rfl, rfl⟩ := Prod.mk.inj (Option.some.inj h)
      exact ⟨_, _, _, _, _, _, _, _, rfl⟩
    · obtain ⟨words, -, h⟩ := Option.bind_eq_some_iff.mp h
      split at h
      · obtain ⟨rfl, rfl⟩ := Prod.mk.inj (Option.some.inj h)
        exact ⟨_, _, _, _, _, _, _, _, rfl⟩
      · obtain ⟨rfl, rfl⟩ := Prod.mk.inj (Option.some.inj h)
        unfold processHeaders
        simp only
        split
        · exact ⟨_, _, _, _, _, _, _, _, rfl⟩
        · exact ⟨_, _, _, _, _, _, _, _, rfl⟩

theorem processRequest_keeps {env : RequestEnv} {valid : Bool}
    (h : processRequest options env c = some (valid, c')) :
    SameClient c c' ∧ c'.state = c.state := by
  obtain ⟨_, _, _, _, _, _, _, _, rfl⟩ := processRequest_inv h
  exact ⟨⟨rfl, rfl⟩, rfl⟩

theorem makeResponse_keeps {env : ResponseEnv} {disk : Disk} {built : Built}
    (h : makeResponse options env disk c = some built) :
    SameClient c built.connection ∧ built.connection.state = c.state := by
  obtain ⟨-, -, file, code, size, -, -, -, printed, encoded, -, -, hsize, -, hencoded, -, -, -,
    rfl⟩ := makeResponse_inv h
  obtain ⟨fd, size, encoding, -, hc⟩ := encodeBody_inv hsize rfl hencoded
  refine ⟨⟨?_, ?_⟩, ?_⟩ <;> simp only [hc]

end Keeps

/-! ### What a step does -/

/-- The effects of a step that keeps the record: what `sys` let it receive or send, or a log line for
a connection that is to be closed. -/
inductive TurnEffects (sys : Sys) (c : QueueConnectionElementType) : List Effect → Prop
  | silent : TurnEffects sys c []
  | received (bytes : Bytes) : (∃ data, data ≠ [] ∧ sys.recv = .data data) →
      TurnEffects sys c [.received bytes]
  | sent (bytes : Bytes) : (∃ count, count ≠ 0 ∧ sys.send = .sent count) →
      TurnEffects sys c [.sent bytes]
  | logged : c.state = .doneForClose → TurnEffects sys c [.logged]

/-- Everything a step can do: write the record of its client, refresh it and re-arm, remove it and
close, or end without its record. -/
inductive EventLoop.Stepped (q : QueueConnectionsType) (e : EventLoop) (sys : Sys) :
    QueueConnectionsType → EventLoop → Prop
  | turned (c : QueueConnectionElementType) (pc : Pc) (effects : List Effect) :
      SameClient (q.connections e.slot) c → pc ≠ .ended →
      ¬ (e.pc = .switch ∧ (q.connections e.slot).state = .doneForClose) →
      (((q.connections e.slot).state = .doneForClose → e.pc = .switch) →
        c.state = .doneForClose → pc = .switch) →
      TurnEffects sys c effects → Stepped q e sys (q.setConnection e.slot c) (e.goto pc effects)
  | updated (q' : QueueConnectionsType) :
      (q.connections e.slot).state = .done → existsConnection q e.clientFd →
      updateQueueConnection q e.clientFd sys.now sys.mem = some q' →
      Stepped q e sys q' (e.goto .ended [.logged, .rearmed])
  | dequeued :
      (q.connections e.slot).state = .doneForClose → existsConnection q e.clientFd →
      Stepped q e sys (dequeueConnectionByFd q e.clientFd) (e.goto .ended [.closed])
  | absent (effects : List Effect) :
      ¬ existsConnection q e.clientFd → effects = [] ∨ effects = [.logged] →
      Stepped q e sys q (e.goto .ended effects)

section Cases

variable {options : Options} {q q' : QueueConnectionsType} {e e' : EventLoop} {sys : Sys}

theorem effectOf_sent {c : QueueConnectionElementType} {accepted : Bytes}
    (h : accepted ≠ [] → ∃ count, count ≠ 0 ∧ sys.send = .sent count) :
    TurnEffects sys c (effectOf .sent accepted) := by
  unfold effectOf
  split
  · exact .silent
  · rename_i hne
    exact .sent accepted (h hne)

theorem effectOf_received {c : QueueConnectionElementType} (connection : QueueConnectionElementType) :
    TurnEffects sys c (effectOf .received (receivedBytes connection sys.recv)) := by
  unfold effectOf
  split
  · exact .silent
  · rename_i hne
    refine .received _ ?_
    cases hr : sys.recv with
    | data data =>
      refine ⟨data, ?_, rfl⟩
      rintro rfl
      exact hne (by rw [hr]; simp [receivedBytes])
    | eintr => exact absurd (by rw [hr]; rfl) hne
    | eagain => exact absurd (by rw [hr]; rfl) hne
    | error => exact absurd (by rw [hr]; rfl) hne

theorem sendResponseHeadersTurn_sent {c : QueueConnectionElementType} {r : SendResult}
    {turn : SendTurn} (h : sendResponseHeadersTurn c r = some turn) (hne : turn.accepted ≠ []) :
    ∃ count, count ≠ 0 ∧ r = .sent count := by
  obtain ⟨headers, -, hturned⟩ := sendResponseHeadersTurn_cases h
  cases hturned with
  | eintr | allSent | blocked | error | disconnected => exact absurd rfl hne
  | sentAll count bytesSend hbytes hsent | sentPart count bytesSend hbytes hsent =>
    refine ⟨count, ?_, rfl⟩
    rintro rfl
    rw [Nat.zero_min] at hbytes
    exact hsent hbytes

theorem sendResponseFileTurn_sent {c : QueueConnectionElementType} {bodyFile : Bytes}
    {r : SendResult} (hne : (sendResponseFileTurn c bodyFile r).accepted ≠ []) :
    ∃ count, count ≠ 0 ∧ r = .sent count := by
  cases r with
  | eintr => exact absurd rfl hne
  | eagain =>
    simp only [sendResponseFileTurn] at hne
    split at hne <;> exact absurd rfl hne
  | error => exact absurd rfl hne
  | sent count =>
    refine ⟨count, ?_, rfl⟩
    rintro rfl
    simp [sendResponseFileTurn] at hne

theorem respond_inv {c : QueueConnectionElementType}
    (h : e.respond options q sys c = some (q', e')) :
    ∃ c', SameClient c c' ∧ c'.state = c.state ∧ (q', e') = e.continue q c' .sendHeaders [] := by
  unfold EventLoop.respond at h
  split at h
  · obtain ⟨built, hbuilt, h⟩ := Option.map_eq_some_iff.mp h
    obtain ⟨hsame, hstate⟩ := makeResponse_keeps hbuilt
    exact ⟨built.connection, hsame, hstate, h.symm⟩
  · exact ⟨c, .refl c, rfl, (Option.some.inj h).symm⟩

theorem sendHeadersCase_inv {c : QueueConnectionElementType}
    (h : e.sendHeadersCase options q sys c = some (q', e')) :
    ∃ c' pc, SameClient c c' ∧ c'.state = c.state ∧ pc ≠ .ended ∧
      (q', e') = e.continue q c' pc [] := by
  unfold EventLoop.sendHeadersCase at h
  split at h
  · obtain ⟨⟨valid, c₁⟩, hparse, h⟩ := Option.bind_eq_some_iff.mp h
    obtain ⟨hsame, hstate⟩ := processRequest_keeps hparse
    simp only at h
    split at h
    · exact ⟨c₁, .sendAll _ _, hsame, hstate, nofun, (Option.some.inj h).symm⟩
    · split at h
      · exact ⟨c₁, .sendAll _ _, hsame, hstate, nofun, (Option.some.inj h).symm⟩
      · split at h
        · exact ⟨c₁, .sendAll _ _, hsame, hstate, nofun, (Option.some.inj h).symm⟩
        · obtain ⟨c', hsame', hstate', heq⟩ := respond_inv h
          exact ⟨c', .sendHeaders, hsame.trans hsame', hstate'.trans hstate, nofun, heq⟩
  · obtain ⟨c', hsame', hstate', heq⟩ := respond_inv h
    exact ⟨c', .sendHeaders, hsame', hstate', nofun, heq⟩

theorem turned_sound {c c' : QueueConnectionElementType} {repeats : Bool} {pc : Pc}
    (hpc : e.pc ≠ .switch) (hstate : repeats = true → c'.state = c.state)
    (hsound : c.state = .doneForClose → e.pc = .switch) (hclose : c'.state = .doneForClose) :
    (if repeats then pc else .switch) = Pc.switch := by
  split
  · rename_i hrep
    exact absurd (hsound ((hstate hrep).symm.trans hclose)) hpc
  · rfl

/-- **The cases of a step.** -/
theorem EventLoop.step_cases (h : e.step options q sys = some (q', e')) : e.Stepped q sys q' e' := by
  unfold EventLoop.step at h
  simp only at h
  cases hpc : e.pc with
  | «switch» =>
    simp only [hpc] at h
    cases hstate : (q.connections e.slot).state with
    | recv =>
      simp only [hstate] at h
      obtain ⟨rfl, rfl⟩ := Prod.mk.inj (Option.some.inj h)
      exact .turned _ .recv [] (.refl _) nofun (by simp [hstate]) (by simp [hstate]) .silent
    | sendHeaders =>
      simp only [hstate] at h
      obtain ⟨c', pc, hsame, hstate', hne, heq⟩ := sendHeadersCase_inv h
      obtain ⟨rfl, rfl⟩ := Prod.mk.inj heq
      exact .turned c' pc [] hsame hne (by simp [hstate]) (by simp [hstate', hstate]) .silent
    | sendBody =>
      simp only [hstate] at h
      split at h <;> obtain ⟨rfl, rfl⟩ := Prod.mk.inj (Option.some.inj h)
      · exact .turned _ .switch [] ⟨rfl, rfl⟩ nofun (by simp [hstate]) (fun _ _ => rfl) .silent
      · exact .turned _ .sendBody [] (.refl _) nofun (by simp [hstate]) (by simp [hstate]) .silent
    | done =>
      simp only [hstate] at h
      rcases doneCase_cases h with ⟨-, hexists, hupdate, rfl⟩ | ⟨-, hgone, rfl, rfl⟩ | ⟨-, heq⟩
      · exact .updated _ hstate hexists hupdate
      · exact .absent [.logged] hgone (Or.inr rfl)
      · obtain ⟨rfl, rfl⟩ := Prod.mk.inj heq
        exact .turned _ .switch [.logged] ⟨rfl, rfl⟩ nofun (by simp [hstate]) (fun _ _ => rfl)
          (.logged rfl)
    | doneForClose =>
      simp only [hstate] at h
      rcases closeCase_cases (Option.some.inj h) with ⟨hexists, rfl, rfl⟩ | ⟨hgone, rfl, rfl⟩
      · exact .dequeued hstate hexists
      · exact .absent [] hgone (Or.inl rfl)
  | recv =>
    simp only [hpc] at h
    obtain ⟨⟨c, repeats⟩, hturn, h⟩ := Option.map_eq_some_iff.mp h
    obtain ⟨rfl, rfl⟩ := Prod.mk.inj h
    obtain ⟨hsame, hstate⟩ := recvRequestTurn_keeps hturn
    exact .turned c _ _ hsame (by split <;> simp) (by simp [hpc])
      (turned_sound (by simp [hpc]) hstate) (effectOf_received _)
  | sendHeaders =>
    simp only [hpc] at h
    obtain ⟨turn, hturn, h⟩ := Option.map_eq_some_iff.mp h
    obtain ⟨rfl, rfl⟩ := Prod.mk.inj h
    obtain ⟨hsame, hstate⟩ := sendResponseHeadersTurn_keeps hturn
    exact .turned _ _ _ hsame (by split <;> simp) (by simp [hpc])
      (turned_sound (by simp [hpc]) hstate) (effectOf_sent (sendResponseHeadersTurn_sent hturn))
  | sendBody =>
    simp only [hpc] at h
    obtain ⟨rfl, rfl⟩ := Prod.mk.inj (Option.some.inj h)
    obtain ⟨hsame, hstate⟩ := sendResponseFileTurn_keeps (q.connections e.slot) sys.bodyFile sys.send
    exact .turned _ _ _ hsame (by split <;> simp) (by simp [hpc])
      (turned_sound (by simp [hpc]) hstate) (effectOf_sent sendResponseFileTurn_sent)
  | sendAll buffer leftToWrite =>
    simp only [hpc] at h
    split at h
    · obtain ⟨rfl, rfl⟩ := Prod.mk.inj (Option.some.inj h)
      exact .turned _ .switch [.logged] ⟨rfl, rfl⟩ nofun (by simp [hpc]) (fun _ _ => rfl)
        (.logged rfl)
    · cases hsend : sys.send with
      | sent count =>
        simp only [hsend, sendAllTurn] at h
        obtain ⟨rfl, rfl⟩ := Prod.mk.inj (Option.some.inj h)
        refine .turned _ (.sendAll buffer _) _ (.refl _) nofun (by simp [hpc]) ?_ (effectOf_sent ?_)
        · intro hsound hclose
          exact absurd (hsound hclose) (by simp [hpc])
        · intro hne
          refine ⟨count, ?_, hsend⟩
          rintro rfl
          simp at hne
      | eintr =>
        simp only [hsend, sendAllTurn] at h
        obtain ⟨rfl, rfl⟩ := Prod.mk.inj (Option.some.inj h)
        refine .turned _ (.sendAll buffer _) [] (.refl _) nofun (by simp [hpc]) ?_ .silent
        intro hsound hclose
        exact absurd (hsound hclose) (by simp [hpc])
      | eagain =>
        simp only [hsend, sendAllTurn] at h
        obtain ⟨rfl, rfl⟩ := Prod.mk.inj (Option.some.inj h)
        exact .turned _ .switch [.logged] ⟨rfl, rfl⟩ nofun (by simp [hpc]) (fun _ _ => rfl)
          (.logged rfl)
      | error =>
        simp only [hsend, sendAllTurn] at h
        obtain ⟨rfl, rfl⟩ := Prod.mk.inj (Option.some.inj h)
        exact .turned _ .switch [.logged] ⟨rfl, rfl⟩ nofun (by simp [hpc]) (fun _ _ => rfl)
          (.logged rfl)
  | ended =>
    simp only [hpc] at h
    cases h

end Cases

/-- The site when nothing moves on the sockets. -/
def localSys (now : ℤ) : Sys where
  now := now
  mem := .zeroed
  recv := .eagain
  send := .eagain
  request := localEnv
  response := localResponseEnv
  disk := wwwDisk
  bodyFile := bytes "hello"

end UbServer

import UbServer.Dispatch

/-!
# Exact delivery of a response

One response that `makeResponse` has built, sent by `sendResponseHeaders` and `sendResponseFile` in
any pattern of partial writes, interruptions and errors, through any number of turns of the loop in
`handleEpoll`.

* `Sending`: the fields of a record that sending works on.
* `Delivering`: how the offsets, the state and the bytes on the wire belong together.
* `exact_delivery`: what the kernel has accepted in every state of a run.
-/

namespace UbServer

open CString Runs QueueConnectionsType

/-- The fields of a record that sending works on. -/
structure Sending where
  state : StateConnection
  requestBuffer : Option Bytes
  responseBufferHeaders : Option Bytes
  responseBufferHeadersLength : ℕ
  responseBufferHeadersOffset : ℕ
  bodyFd : ℤ
  bodyLength : ℕ
  bodyOffset : ℕ

def QueueConnectionElementType.sending (c : QueueConnectionElementType) : Sending where
  state := c.state
  requestBuffer := c.requestBuffer
  responseBufferHeaders := c.responseBufferHeaders
  responseBufferHeadersLength := c.responseBufferHeadersLength
  responseBufferHeadersOffset := c.responseBufferHeadersOffset
  bodyFd := c.bodyFd
  bodyLength := c.bodyLength
  bodyOffset := c.bodyOffset

/-! ### The request line -/

/-- The request line in a block has three tokens, which fit the arrays they are scanned into. -/
def RequestLine (block method path protocolVersion : Bytes) : Prop :=
  ∃ firstLineLength, strstr crlf (cString block) = some firstLineLength ∧
    scanWords 3 ((cString block).take firstLineLength) = [method, path, protocolVersion] ∧
    method.length < 10 ∧ path.length < requestPathMaxSize ∧ protocolVersion.length < 9

section RequestLine

variable {options : Options} {env : RequestEnv} {c : QueueConnectionElementType}
  {block method path protocolVersion : Bytes}

theorem processHeaders_sending (text : Bytes) (firstLineLength : ℕ)
    (c : QueueConnectionElementType) :
    (processHeaders text firstLineLength c).sending = c.sending ∧
      (processHeaders text firstLineLength c).path = c.path ∧
      (processHeaders text firstLineLength c).protocolVersion = c.protocolVersion := by
  unfold processHeaders
  simp only
  split <;> exact ⟨rfl, rfl, rfl⟩

theorem scanRequestLine_eq {line : Bytes}
    (hwords : scanWords 3 line = [method, path, protocolVersion])
    (hmethod : method.length < 10) (hpath : path.length < requestPathMaxSize)
    (hversion : protocolVersion.length < 9) :
    scanRequestLine env line = some (method, path, protocolVersion) := by
  unfold scanRequestLine
  simp only [hwords, List.getD_cons_zero, List.getD_cons_succ, fits_of_lt hmethod,
    fits_of_lt hpath, fits_of_lt hversion]
  rfl

/-- A request line with a supported method is accepted, also when it is processed again, and nothing
that sending works on changes. -/
theorem processRequest_requestLine (options : Options)
    (hline : RequestLine block method path protocolVersion)
    (hsupported : strToMethod method ≠ .unsupported) (hblock : c.requestBuffer = some block)
    (hpeer : env.peer.isSome) :
    ∃ c', processRequest options env c = some (true, c') ∧ c'.path = some path ∧
      c'.protocolVersion = protocolVersion ∧ c'.sending = c.sending := by
  obtain ⟨firstLineLength, hcrlf, hwords, hmethod, hpath, hversion⟩ := hline
  obtain ⟨ip, hip⟩ := Option.isSome_iff_exists.mp hpeer
  unfold processRequest
  simp only [hblock, Option.bind_eq_bind, Option.bind_some, hip, hcrlf,
    scanRequestLine_eq hwords hmethod hpath hversion, if_neg hsupported]
  refine ⟨_, rfl, (processHeaders_sending _ _ _).2.1, (processHeaders_sending _ _ _).2.2,
    (processHeaders_sending _ _ _).1.trans ?_⟩
  simp only [QueueConnectionElementType.sending, hblock]

theorem supported_of_processRequest {c' : QueueConnectionElementType}
    (hline : RequestLine block method path protocolVersion) (hblock : c.requestBuffer = some block)
    (h : processRequest options env c = some (true, c')) :
    env.peer.isSome ∧ strToMethod method ≠ .unsupported := by
  obtain ⟨firstLineLength, hcrlf, hwords, hmethod, hpath, hversion⟩ := hline
  unfold processRequest at h
  cases hip : env.peer with
  | none => simp [hblock, hip] at h
  | some ip =>
    refine ⟨rfl, fun hunsupported => ?_⟩
    simp only [hblock, Option.bind_eq_bind, Option.bind_some, hip, hcrlf,
      scanRequestLine_eq hwords hmethod hpath hversion, if_pos hunsupported] at h
    cases h

end RequestLine

/-! ### The response built -/

section Built

variable {options : Options} {env : ResponseEnv} {disk : Disk} {c : QueueConnectionElementType}
  {built : Built}

/-- The record after `makeResponse`: the whole header is in the buffer, the offsets are at the start,
and `bodyLength` is the length of the file behind `bodyFd`. -/
theorem makeResponse_sending (hversion : c.protocolVersion.length < 9)
    (h : makeResponse options env disk c = some built) :
    ∃ (head : Bytes) (bodyFd : ℕ), head.length < 1024 ∧ built.body.length < 2 ^ 63 ∧
      built.connection.sending =
        { c.sending with
          responseBufferHeaders := some head
          responseBufferHeadersLength := head.length
          responseBufferHeadersOffset := 0
          bodyFd := bodyFd
          bodyLength := built.body.length
          bodyOffset := 0 } := by
  obtain ⟨-, -, file, code, size, mimeType, lastModifiedDate, currentDate, printed, encoded, -, -,
    hsize, hmime, hencoded, hmodified, hcurrent, hprinted, rfl⟩ := makeResponse_inv h
  obtain ⟨bodyFd, size', encoding, hsize', hconnection⟩ := encodeBody_inv hsize rfl hencoded
  obtain ⟨rfl, hlt⟩ := stSize_inv hsize'
  have hversion' : encoded.connection.protocolVersion.length < 9 := by
    rw [hconnection]
    exact hversion
  have hlength : encoded.connection.bodyLength < 2 ^ 64 := by
    rw [hconnection]
    exact hlt.trans (by decide)
  have hfit := length_responseHeaderTexts hversion' (getMimeType_length hmime) (fits_inv hmodified).2
    (fits_inv hcurrent).2 hlength
  obtain rfl := Option.some.inj ((printAll_of_lt hfit).symm.trans hprinted)
  refine ⟨_, bodyFd, hfit, hlt, ?_⟩
  simp only [QueueConnectionElementType.sending, hconnection]

end Built

/-! ### Sending it -/

/-- How the record, the place in the loop and the bytes on the wire belong together while the
response `head ++ body` to the request in `block` is sent. -/
structure Delivering (block head body wire : Bytes) (pc : Pc) (s : Sending) : Prop where
  requestBuffer : s.requestBuffer = some block
  headers : s.responseBufferHeaders = some head
  headersLength : s.responseBufferHeadersLength = head.length
  headersOffset : s.responseBufferHeadersOffset ≤ head.length
  bodyLength : s.bodyLength = body.length
  bodyOffset : s.bodyOffset ≤ body.length
  progress : match s.state with
    | .recv => False
    | .sendHeaders => (pc = .switch ∨ pc = .sendHeaders) ∧ s.bodyOffset = 0 ∧ s.bodyFd ≠ -1 ∧
        wire = head.take s.responseBufferHeadersOffset
    | .sendBody => (pc = .switch ∨ pc = .sendBody) ∧ s.bodyFd ≠ -1 ∧
        wire = head ++ body.take s.bodyOffset
    | .done => pc = .switch ∧ wire = head ++ body
    | .doneForClose => pc = .switch ∧ wire <+: head ++ body

section Turns

variable {c : QueueConnectionElementType} {block head body wire : Bytes} {pc : Pc}

/-- Whatever the state, the bytes on the wire are the first ones of the response. -/
theorem Delivering.accepted {s : Sending} (h : Delivering block head body wire pc s) :
    wire <+: head ++ body := by
  have hp := h.progress
  cases hs : s.state with
  | recv => rw [hs] at hp; exact hp.elim
  | sendHeaders =>
    rw [hs] at hp
    rw [hp.2.2.2]
    exact (List.take_prefix _ _).trans (List.prefix_append _ _)
  | sendBody =>
    rw [hs] at hp
    rw [hp.2.2]
    exact (List.prefix_append_right_inj _).mpr (List.take_prefix _ _)
  | done => rw [hs] at hp; rw [hp.2]
  | doneForClose => rw [hs] at hp; exact hp.2

theorem Delivering.close {s : Sending} (h : Delivering block head body wire pc s) :
    Delivering block head body wire .switch { s with state := .doneForClose } :=
  ⟨h.requestBuffer, h.headers, h.headersLength, h.headersOffset, h.bodyLength, h.bodyOffset, rfl,
    h.accepted⟩

theorem take_add_append (l : Bytes) (m n : ℕ) : l.take m ++ (l.drop m).take n = l.take (m + n) :=
  (List.take_add ..).symm

/-- The record with the header sent up to `n`, in the loop of `sendResponseHeaders` or before the
`switch`. -/
theorem delivering_headers (hstate : c.state = .sendHeaders)
    (h : Delivering block head body wire pc c.sending) {n : ℕ} (hn : n ≤ head.length) {pc' : Pc}
    (hpc' : pc' = .switch ∨ pc' = .sendHeaders) :
    Delivering block head body (head.take n) pc'
      { c.sending with responseBufferHeadersOffset := n } := by
  have hp := h.progress
  have hstate' : c.sending.state = .sendHeaders := hstate
  rw [hstate'] at hp
  refine ⟨h.requestBuffer, h.headers, h.headersLength, hn, h.bodyLength, h.bodyOffset, ?_⟩
  simp only [hstate']
  exact ⟨hpc', hp.2.1, hp.2.2.1, trivial⟩

theorem delivering_toSendBody (hstate : c.state = .sendHeaders)
    (h : Delivering block head body wire pc c.sending) :
    Delivering block head body head .switch
      { c.sending with state := .sendBody, responseBufferHeadersOffset := 0 } := by
  have hp := h.progress
  rw [show c.sending.state = .sendHeaders from hstate] at hp
  refine ⟨h.requestBuffer, h.headers, h.headersLength, Nat.zero_le _, h.bodyLength, h.bodyOffset,
    Or.inl rfl, hp.2.2.1, ?_⟩
  show head = head ++ body.take c.sending.bodyOffset
  rw [hp.2.1, List.take_zero, List.append_nil]

theorem sendResponseHeadersTurn_delivering (hhead : head.length < 1024)
    (hstate : c.state = .sendHeaders) (h : Delivering block head body wire pc c.sending)
    {r : SendResult} {turn : SendTurn} (hturn : sendResponseHeadersTurn c r = some turn) :
    Delivering block head body (wire ++ turn.accepted)
      (if turn.repeats then .sendHeaders else .switch) turn.connection.sending := by
  have hlength : c.responseBufferHeadersLength = head.length := h.headersLength
  have hoffset : c.responseBufferHeadersOffset ≤ head.length := h.headersOffset
  have hwire : wire = head.take c.responseBufferHeadersOffset := by
    have hp := h.progress
    rw [show c.sending.state = .sendHeaders from hstate] at hp
    exact hp.2.2.2
  have hstay : ∀ pc', pc' = Pc.switch ∨ pc' = .sendHeaders →
      Delivering block head body (wire ++ []) pc' c.sending := fun pc' hpc' => by
    rw [List.append_nil, hwire]
    exact delivering_headers hstate h hoffset hpc'
  have hasked : sizeSub c.responseBufferHeadersLength c.responseBufferHeadersOffset =
      head.length - c.responseBufferHeadersOffset := by
    rw [hlength]
    exact sizeSub_of_le hoffset (by omega)
  have hsent : ∀ n, wire ++ (head.drop c.responseBufferHeadersOffset).take n =
      head.take (c.responseBufferHeadersOffset + n) := fun n => by
    rw [hwire, take_add_append]
  obtain ⟨headers, hheaders, hturned⟩ := sendResponseHeadersTurn_cases hturn
  obtain rfl : headers = head := Option.some.inj (hheaders.symm.trans h.headers)
  cases hturned with
  | eintr => exact hstay _ (Or.inr rfl)
  | allSent hall =>
    have hout : wire ++ [] = headers := by
      rw [List.append_nil, hwire, hall, hlength, List.take_length]
    rw [hout]
    exact delivering_toSendBody hstate h
  | blocked => exact hstay _ (Or.inl rfl)
  | error | disconnected =>
    rw [List.append_nil]
    exact h.close
  | sentAll count bytesSend hbytes hne hall =>
    have hout : wire ++ (headers.drop c.responseBufferHeadersOffset).take bytesSend = headers := by
      rw [hsent, hall, hlength, List.take_length]
    rw [hout]
    exact delivering_toSendBody hstate h
  | sentPart count bytesSend hbytes hne hpart =>
    rw [hasked] at hbytes
    rw [hsent]
    exact delivering_headers hstate h (by omega) (Or.inr rfl)

/-- The record with the body sent up to `n`, in the loop of `sendResponseFile` or before the
`switch`. -/
theorem delivering_body (hstate : c.state = .sendBody)
    (h : Delivering block head body wire pc c.sending) {n : ℕ} (hn : n ≤ body.length) {pc' : Pc}
    (hpc' : pc' = .switch ∨ pc' = .sendBody) :
    Delivering block head body (head ++ body.take n) pc' { c.sending with bodyOffset := n } := by
  have hp := h.progress
  have hstate' : c.sending.state = .sendBody := hstate
  rw [hstate'] at hp
  refine ⟨h.requestBuffer, h.headers, h.headersLength, h.headersOffset, h.bodyLength, hn, ?_⟩
  simp only [hstate']
  exact ⟨hpc', hp.2.1, trivial⟩

theorem delivering_bodySent {s : Sending} (h : Delivering block head body wire pc s) :
    Delivering block head body (head ++ body) .switch
      { s with state := .done, bodyOffset := 0, bodyFd := -1 } :=
  ⟨h.requestBuffer, h.headers, h.headersLength, h.headersOffset, h.bodyLength, Nat.zero_le _, rfl,
    rfl⟩

theorem sendResponseFileTurn_delivering (hbody : body.length < 2 ^ 63)
    (hstate : c.state = .sendBody) (h : Delivering block head body wire pc c.sending)
    (r : SendResult) :
    Delivering block head body (wire ++ (sendResponseFileTurn c body r).accepted)
      (if (sendResponseFileTurn c body r).repeats then .sendBody else .switch)
      (sendResponseFileTurn c body r).connection.sending := by
  have hlength : c.bodyLength = body.length := h.bodyLength
  have hoffset : c.bodyOffset ≤ body.length := h.bodyOffset
  have hwire : wire = head ++ body.take c.bodyOffset := by
    have hp := h.progress
    rw [show c.sending.state = .sendBody from hstate] at hp
    exact hp.2.2
  have hstay : ∀ pc', pc' = Pc.switch ∨ pc' = .sendBody →
      Delivering block head body (wire ++ []) pc' c.sending := fun pc' hpc' => by
    rw [List.append_nil, hwire]
    exact delivering_body hstate h hoffset hpc'
  unfold sendResponseFileTurn
  cases r with
  | eintr => exact hstay _ (Or.inr rfl)
  | eagain =>
    simp only
    split
    · rename_i hall
      have hwire' : wire ++ [] = head ++ body := by
        rw [List.append_nil, hwire, hall, hlength, List.take_length]
      rw [hwire']
      exact delivering_bodySent h
    · exact hstay _ (Or.inl rfl)
  | error =>
    rw [List.append_nil]
    exact h.close
  | sent count =>
    have hasked : sizeSub c.bodyLength c.bodyOffset = body.length - c.bodyOffset := by
      rw [hlength]
      exact sizeSub_of_le hoffset (by omega)
    have hmin := Nat.min_le_right count (body.length - c.bodyOffset)
    have hsent : wire ++ (body.drop c.bodyOffset).take (min count (body.length - c.bodyOffset)) =
        head ++ body.take (c.bodyOffset + min count (body.length - c.bodyOffset)) := by
      rw [hwire, List.append_assoc, take_add_append]
    have hlen : ((body.drop c.bodyOffset).take (min count (body.length - c.bodyOffset))).length =
        min count (body.length - c.bodyOffset) := by
      rw [List.length_take, List.length_drop]
      omega
    have hmoved := delivering_body hstate h
      (show c.bodyOffset + min count (body.length - c.bodyOffset) ≤ body.length by omega)
      (Or.inr rfl)
    rw [← hsent] at hmoved
    simp only [hasked, hlen]
    split
    · exact hmoved.close
    · split
      · rename_i hall
        rw [hall, hlength, List.take_length] at hsent
        rw [hsent]
        exact delivering_bodySent hmoved
      · exact hmoved

theorem Delivering.pc_cases {s : Sending} (h : Delivering block head body wire pc s) :
    pc = .switch ∨ pc = .sendHeaders ∧ s.state = .sendHeaders ∨
      pc = .sendBody ∧ s.state = .sendBody := by
  have hp := h.progress
  cases hs : s.state <;> rw [hs] at hp
  · exact hp.elim
  · exact hp.1.imp_right fun h => Or.inl ⟨h, rfl⟩
  · exact hp.1.imp_right fun h => Or.inr ⟨h, rfl⟩
  · exact Or.inl hp.1
  · exact Or.inl hp.1

end Turns

/-! ### Runs of the loop -/

/-- The bytes that the kernel has accepted. -/
def wire (effects : List Effect) : Bytes :=
  effects.flatMap fun
    | .sent bytes => bytes
    | _ => []

theorem wire_append (effects effects' : List Effect) :
    wire (effects ++ effects') = wire effects ++ wire effects' := List.flatMap_append

theorem wire_effectOf_sent (accepted : Bytes) : wire (effectOf .sent accepted) = accepted := by
  unfold effectOf
  split
  · rename_i h
    exact h.symm
  · simp [wire]

/-- The request in the block is answered with a response of `makeResponse`: its method and protocol
are supported and it does not ask for `/hello`. -/
def Answerable (block : Bytes) : Prop :=
  ∃ method path protocolVersion, RequestLine block method path protocolVersion ∧
    strToMethod method ≠ .unsupported ∧ supportedProtocol protocolVersion ∧ ¬ isHello (some path)

/-- The queue of a thread and the loop it is in. -/
abbrev Dispatching := QueueConnectionsType × EventLoop

/-- The record that the loop works on. -/
def Dispatching.connection (s : Dispatching) : QueueConnectionElementType :=
  s.1.connections s.2.slot

/-- A step of the loop while `getpeername` succeeds and the file behind `bodyFd` is `body`. -/
def deliveryNext (options : Options) (body : Bytes) (s : Dispatching) (sys : Sys) :
    Option Dispatching :=
  if sys.request.peer.isSome ∧ sys.bodyFile = body then s.2.step options s.1 sys else none

/-- A step of the loop, as a step relation. -/
abbrev DeliveryStep (options : Options) (body : Bytes) (s : Dispatching) (sys : Sys)
    (s' : Dispatching) : Prop :=
  deliveryNext options body s sys = some s'

/-- What holds in every state of a run: the response is on its way, or the loop is over. -/
def OnTheWay (block head body : Bytes) (s : Dispatching) : Prop :=
  (s.2.pc = .ended ∧ wire s.2.effects <+: head ++ body) ∨
    Delivering block head body (wire s.2.effects) s.2.pc s.connection.sending

section Steps

variable {options : Options} {block head body : Bytes} {q : QueueConnectionsType} {e : EventLoop}
  {s' : Dispatching} {sys : Sys}

theorem onTheWay_continue {c : QueueConnectionElementType} {pc : Pc} {effects : List Effect}
    (h : Delivering block head body (wire e.effects ++ wire effects) pc c.sending) :
    OnTheWay block head body (e.continue q c pc effects) := by
  refine Or.inr ?_
  have hslot : (q.setConnection e.slot c).connections e.slot = c := by simp [setConnection]
  have hwire : wire (e.effects ++ effects) = wire e.effects ++ wire effects := wire_append _ _
  show Delivering block head body (wire (e.effects ++ effects)) pc
    ((q.setConnection e.slot c).connections e.slot).sending
  rw [hslot, hwire]
  exact h

theorem onTheWay_ended {q' : QueueConnectionsType} {effects : List Effect}
    (h : wire e.effects <+: head ++ body) (hsilent : wire effects = []) :
    OnTheWay block head body (q', e.goto .ended effects) := by
  refine Or.inl ⟨rfl, ?_⟩
  show wire (e.effects ++ effects) <+: head ++ body
  rw [wire_append, hsilent, List.append_nil]
  exact h

theorem sendHeadersCase_onTheWay {c : QueueConnectionElementType}
    (hanswer : Answerable block) (hpeer : sys.request.peer.isSome) (hstate : c.state = .sendHeaders)
    (h : Delivering block head body (wire e.effects) .switch c.sending)
    (hstep : e.sendHeadersCase options q sys c = some s') : OnTheWay block head body s' := by
  have hrespond : ∀ c' : QueueConnectionElementType, c'.sending = c.sending →
      e.respond options q sys c' = some s' → OnTheWay block head body s' := by
    intro c' hsending hstep
    have hheaders : c'.responseBufferHeaders = some head :=
      (congrArg Sending.responseBufferHeaders hsending).trans h.headers
    unfold EventLoop.respond at hstep
    rw [hheaders, if_neg nofun] at hstep
    obtain rfl := Option.some.inj hstep
    refine onTheWay_continue ?_
    rw [hsending, show wire [] = [] from rfl, List.append_nil]
    have hp := h.progress
    rw [show c.sending.state = .sendHeaders from hstate] at hp
    rw [hp.2.2.2]
    exact delivering_headers hstate h h.headersOffset (Or.inr rfl)
  unfold EventLoop.sendHeadersCase at hstep
  split at hstep
  · -- the request had no headers: it is processed once more
    obtain ⟨method, path, protocolVersion, hline, hsupported, hprotocol, hhello⟩ := hanswer
    obtain ⟨c', hparse, hpath, hversion, hsending⟩ :=
      processRequest_requestLine options hline hsupported h.requestBuffer hpeer
    rw [hparse, Option.bind_some] at hstep
    simp only [not_true_eq_false, if_false] at hstep
    rw [hversion, hpath, if_neg (not_not_intro hprotocol), if_neg hhello] at hstep
    exact hrespond c' hsending hstep
  · exact hrespond c rfl hstep

/-- **What every step keeps.** -/
theorem onTheWay_step {s : Dispatching} (hanswer : Answerable block) (hhead : head.length < 1024)
    (hbody : body.length < 2 ^ 63) (hst : DeliveryStep options body s sys s')
    (h : OnTheWay block head body s) : OnTheWay block head body s' := by
  obtain ⟨q, e⟩ := s
  unfold DeliveryStep deliveryNext at hst
  split at hst
  · rename_i hsys
    obtain ⟨hpeer, hfile⟩ := hsys
    rcases h with ⟨hended, -⟩ | h
    · -- the loop is over
      rw [EventLoop.step_of_ended hended] at hst
      cases hst
    have h : Delivering block head body (wire e.effects) e.pc (q.connections e.slot).sending := h
    rcases h.pc_cases with hpc | ⟨hpc, hstate⟩ | ⟨hpc, hstate⟩
    · rw [hpc] at h
      have hp := h.progress
      cases hstate : (q.connections e.slot).state with
      | recv =>
        rw [show (q.connections e.slot).sending.state = .recv from hstate] at hp
        exact hp.elim
      | sendHeaders =>
        rw [EventLoop.step_switch_sendHeaders hpc hstate] at hst
        exact sendHeadersCase_onTheWay hanswer hpeer hstate h hst
      | sendBody =>
        rw [show (q.connections e.slot).sending.state = .sendBody from hstate] at hp
        have hfd : (q.connections e.slot).bodyFd ≠ -1 := hp.2.1
        rw [EventLoop.step_switch_sendBody hpc hstate hfd] at hst
        obtain rfl := Option.some.inj hst
        refine onTheWay_continue ?_
        rw [show wire [] = [] from rfl, List.append_nil, hp.2.2]
        exact delivering_body hstate h h.bodyOffset (Or.inr rfl)
      | done =>
        obtain ⟨q', e'⟩ := s'
        rw [EventLoop.step_switch_done hpc hstate] at hst
        rcases EventLoop.doneCase_cases hst with ⟨-, -, -, rfl⟩ | ⟨-, -, -, rfl⟩ | ⟨-, heq⟩
        · exact onTheWay_ended h.accepted rfl
        · exact onTheWay_ended h.accepted rfl
        · rw [heq]
          refine onTheWay_continue ?_
          rw [show wire [.logged] = [] from rfl, List.append_nil]
          exact h.close
      | doneForClose =>
        obtain ⟨q', e'⟩ := s'
        rw [EventLoop.step_switch_doneForClose hpc hstate] at hst
        rcases EventLoop.closeCase_cases (Option.some.inj hst) with ⟨-, -, rfl⟩ | ⟨-, -, rfl⟩
        · exact onTheWay_ended h.accepted rfl
        · exact onTheWay_ended h.accepted rfl
    · rw [EventLoop.step_sendHeaders hpc] at hst
      obtain ⟨turn, hturn, rfl⟩ := Option.map_eq_some_iff.mp hst
      refine onTheWay_continue ?_
      rw [wire_effectOf_sent]
      exact sendResponseHeadersTurn_delivering hhead hstate h hturn
    · rw [EventLoop.step_sendBody hpc, hfile] at hst
      obtain rfl := Option.some.inj hst
      refine onTheWay_continue ?_
      rw [wire_effectOf_sent]
      exact sendResponseFileTurn_delivering hbody hstate h sys.send
  · cases hst

end Steps

/-- What the kernel has accepted of the response `head ++ body`, and how far the record says it is. -/
structure ExactDelivery (head body : Bytes) (s : Dispatching) : Prop where
  /-- No byte is skipped or repeated. -/
  accepted : wire s.2.effects <+: head ++ body
  /-- As long as the loop runs, no remaining length is negative. -/
  remaining : s.2.pc ≠ .ended →
    s.connection.responseBufferHeadersOffset ≤ s.connection.responseBufferHeadersLength ∧
      s.connection.bodyOffset ≤ s.connection.bodyLength
  /-- `STATE_CONNECTION_DONE` is only reached with everything sent. -/
  done : s.2.pc ≠ .ended → s.connection.state = .done → wire s.2.effects = head ++ body

theorem OnTheWay.exactDelivery {block head body : Bytes} {s : Dispatching}
    (h : OnTheWay block head body s) : ExactDelivery head body s := by
  rcases h with ⟨hended, haccepted⟩ | h
  · exact ⟨haccepted, fun hne => absurd hended hne, fun hne => absurd hended hne⟩
  · refine ⟨h.accepted, fun _ => ⟨?_, ?_⟩, fun _ hstate => ?_⟩
    · have hlength : s.connection.responseBufferHeadersLength = head.length := h.headersLength
      rw [hlength]
      exact h.headersOffset
    · have hlength : s.connection.bodyLength = body.length := h.bodyLength
      rw [hlength]
      exact h.bodyOffset
    · have hp := h.progress
      rw [show s.connection.sending.state = .done from hstate] at hp
      exact hp.2

/-- The loop before the header of the response just built is sent. -/
def Dispatching.responding (q : QueueConnectionsType) (e : EventLoop)
    (connection : QueueConnectionElementType) : Dispatching :=
  (q.setConnection e.slot connection, { e with pc := .sendHeaders })

/-- **Exact delivery.** A request with three tokens that fit is processed and answered with a
response of `makeResponse`, whose file does not change while it is sent. Then in every state of every
run of the loop the kernel has accepted a prefix of the header and the file, no remaining length is
negative, and all is sent when the connection is done. -/
theorem exact_delivery {options : Options} {env : RequestEnv} {response : ResponseEnv} {disk : Disk}
    {c₀ c₁ : QueueConnectionElementType} {built : Built} {q : QueueConnectionsType} {e : EventLoop}
    {block method path protocolVersion : Bytes} {h : List (Transition Dispatching Sys)}
    {s : Dispatching} (hblock : c₀.requestBuffer = some block) (hstate : c₀.state = .sendHeaders)
    (hline : RequestLine block method path protocolVersion)
    (hparse : processRequest options env c₀ = some (true, c₁))
    (hprotocol : supportedProtocol c₁.protocolVersion) (hhello : ¬ isHello c₁.path)
    (hbuilt : makeResponse options response disk c₁ = some built) (hquiet : wire e.effects = [])
    (hrun : Run (DeliveryStep options built.body) (.responding q e built.connection) h s) :
    ∃ head, built.connection.responseBufferHeaders = some head ∧
      built.connection.responseBufferHeadersLength = head.length ∧
      built.connection.bodyLength = built.body.length ∧ ExactDelivery head built.body s := by
  obtain ⟨hpeer, hsupported⟩ := supported_of_processRequest hline hblock hparse
  obtain ⟨c', hparse', hpath, hversion, hsending⟩ :=
    processRequest_requestLine options hline hsupported hblock hpeer
  obtain rfl := (Prod.mk.inj (Option.some.inj (hparse.symm.trans hparse'))).2
  have hanswer : Answerable block :=
    ⟨method, path, protocolVersion, hline, hsupported, hversion ▸ hprotocol, hpath ▸ hhello⟩
  have hshort : c₁.protocolVersion.length < 9 := by
    obtain ⟨-, -, -, -, -, hlt⟩ := hline
    rw [hversion]
    exact hlt
  obtain ⟨head, bodyFd, hhead, hbody, hbuiltSending⟩ := makeResponse_sending hshort hbuilt
  have hstart : Delivering block head built.body [] .sendHeaders built.connection.sending := by
    rw [hbuiltSending, hsending]
    refine ⟨hblock, rfl, rfl, Nat.zero_le _, rfl, Nat.zero_le _, ?_⟩
    simp only [show c₀.sending.state = .sendHeaders from hstate]
    refine ⟨Or.inr trivial, trivial, ?_, List.take_zero.symm⟩
    simp
  have hinit : OnTheWay block head built.body (.responding q e built.connection) := by
    refine Or.inr ?_
    have hslot : (q.setConnection e.slot built.connection).connections e.slot = built.connection := by
      simp [setConnection]
    show Delivering block head built.body (wire e.effects) .sendHeaders
      ((q.setConnection e.slot built.connection).connections e.slot).sending
    rw [hquiet, hslot]
    exact hstart
  refine ⟨head, ?_, ?_, ?_, ?_⟩
  · exact congrArg Sending.responseBufferHeaders hbuiltSending
  · exact congrArg Sending.responseBufferHeadersLength hbuiltSending
  · exact congrArg Sending.bodyLength hbuiltSending
  · have honTheWay : OnTheWay block head built.body s :=
      hrun.invariant hinit fun _ _ _ hst => onTheWay_step hanswer hhead hbody hst
    exact honTheWay.exactDelivery

/-- The record when the request for the index page is complete. -/
def indexPageConnection : QueueConnectionElementType :=
  { freshConnection 5 100 .zeroed with
    requestBuffer := some (indexPageRequest ++ [0])
    state := .sendHeaders }

def indexPageParsed : QueueConnectionElementType :=
  ((processRequest wwwOptions localEnv indexPageConnection).get (by decide +kernel)).2

def indexPageBuilt : Built :=
  (makeResponse wwwOptions localResponseEnv wwwDisk indexPageParsed).get (by decide +kernel)

/-- Partial writes of the header and the file, with interruptions. -/
def partialWrites : List Sys :=
  [{ localSys 100 with send := .sent 10 }, localSys 100, localSys 100,
    { localSys 100 with send := .eintr }, { localSys 100 with send := .sent 1024 }, localSys 100,
    { localSys 100 with send := .sent 2 }, localSys 100, localSys 100,
    { localSys 100 with send := .sent 9 }]

/-- The index page in pieces. -/
theorem exact_delivery_indexPage :
    ∃ head, indexPageBuilt.connection.responseBufferHeaders = some head ∧
      indexPageBuilt.connection.responseBufferHeadersLength = head.length ∧
      indexPageBuilt.connection.bodyLength = indexPageBuilt.body.length ∧
      ExactDelivery head indexPageBuilt.body
        ((exec (deliveryNext wwwOptions indexPageBuilt.body)
          (.responding createQueueConnections (.start 5 0) indexPageBuilt.connection)
          partialWrites).get (by decide +kernel)) :=
  exact_delivery
    (show indexPageConnection.requestBuffer = some (indexPageRequest ++ [0]) from rfl) rfl
    (show RequestLine (indexPageRequest ++ [0]) (bytes "GET") (bytes "/") (bytes "HTTP/1.1") from
      ⟨14, by decide +kernel⟩)
    (show processRequest wwwOptions localEnv indexPageConnection = some (true, indexPageParsed) by
      decide +kernel)
    (by decide +kernel) (by decide +kernel)
    (show makeResponse wwwOptions localResponseEnv wwwDisk indexPageParsed = some indexPageBuilt from
      (Option.some_get _).symm)
    rfl (run_of_isSome (by decide +kernel))

end UbServer

import UbServer.RequestLine

/-!
# A blocked socket

The loop for one client from the moment on when every `recv`, `send` and `sendfile` on its socket
answers `EAGAIN`.

* `Returns`: the loop ends, whatever else the system answers.
* `Yields`: where the loop stands and what is left to do, when it ends.
* `returns_iff_yields`: everywhere else a handler returns without having changed the record, and the
  loop calls it again for ever.
-/

namespace UbServer

open CString Runs QueueConnectionsType

/-- A step of the loop of a client. -/
def loopNext (options : Options) (s : Dispatching) (sys : Sys) : Option Dispatching :=
  s.2.step options s.1 sys

/-- The socket of the client takes and gives nothing. -/
def Blocked (sys : Sys) : Prop := sys.recv = .eagain ∧ sys.send = .eagain

/-- The thread goes back to `epoll_wait`. -/
def Dispatching.Ended (s : Dispatching) : Prop := s.2.pc = .ended

/-- **No spinning.** The loop ends on every script of a blocked socket. -/
def Returns (options : Options) (s : Dispatching) : Prop :=
  Inevitable (loopNext options) Blocked Dispatching.Ended s

/-! ### Where the loop ends -/

/-- The whole header has been sent. -/
def HeadersOut (c : QueueConnectionElementType) : Prop :=
  c.responseBufferHeaders.isSome ∧ c.responseBufferHeadersOffset = c.responseBufferHeadersLength

/-- There is no body, or all of it has been sent. -/
def BodyOut (c : QueueConnectionElementType) : Prop :=
  c.bodyFd = -1 ∨ c.bodyOffset = c.bodyLength

/-- Nothing of the response is left to send. -/
def SentOut (c : QueueConnectionElementType) : Prop := HeadersOut c ∧ BodyOut c

/-- `processRequest` is followed by one of the fixed responses. -/
def Refused (valid : Bool) (c : QueueConnectionElementType) : Prop :=
  ¬ valid ∨ ¬ supportedProtocol c.protocolVersion ∨ isHello c.path

/-- In `STATE_CONNECTION_SEND_HEADERS`: nothing is left to send, or the request is still to be
processed and is then refused, whatever `getpeername` and the local arrays hold. -/
def SendHeadersYields (options : Options) (c : QueueConnectionElementType) : Prop :=
  if c.requestHeaders = [] then
    ∀ env, ∃ valid c', processRequest options env c = some (valid, c') ∧
      (Refused valid c' ∨ SentOut c')
  else SentOut c

/-- In `STATE_CONNECTION_RECV`: the request is complete and fits, and the loop ends in the next
state. -/
def RecvYields (options : Options) (c : QueueConnectionElementType) : Prop :=
  ∃ buffer c', c.requestBuffer = some buffer ∧ isRequestComplete buffer = some true ∧
    finishRequest c buffer = some c' ∧ SendHeadersYields options c'

/-- Where the loop stands and what is left to do when it ends without the socket. -/
def Yields (options : Options) (s : Dispatching) : Prop :=
  match s.2.pc with
  | .ended => True
  | .sendAll _ _ => True
  | .recv => RecvYields options s.connection
  | .sendHeaders => SentOut s.connection
  | .sendBody => BodyOut s.connection
  | .switch =>
    match s.connection.state with
    | .recv => RecvYields options s.connection
    | .sendHeaders => SendHeadersYields options s.connection
    | .sendBody => BodyOut s.connection
    | .done => True
    | .doneForClose => True

section Rules

variable {options : Options} {s t : Dispatching}

theorem blocked_localSys : Blocked (localSys 0) := ⟨rfl, rfl⟩

theorem returns_iff_step (h : s.2.pc ≠ .ended) :
    Returns options s ↔
      ∀ sys, Blocked sys → ∃ t, loopNext options s sys = some t ∧ Returns options t :=
  inevitable_iff_step h

theorem returns_iff_next (h : s.2.pc ≠ .ended)
    (hstep : ∀ sys, Blocked sys → loopNext options s sys = some t) :
    Returns options s ↔ Returns options t := by
  rw [returns_iff_step h]
  constructor
  · intro hs
    obtain ⟨t', ht', hreturns⟩ := hs (localSys 0) blocked_localSys
    obtain rfl := Option.some.inj ((hstep _ blocked_localSys).symm.trans ht')
    exact hreturns
  · intro ht sys hsys
    exact ⟨t, hstep sys hsys, ht⟩

theorem returns_of_ended (h : s.2.pc = .ended) : Returns options s := inevitable_of_final h

@[simp] theorem connection_continue (q : QueueConnectionsType) (e : EventLoop)
    (c : QueueConnectionElementType) (pc : Pc) (effects : List Effect) :
    Dispatching.connection (e.continue q c pc effects) = c :=
  Function.update_self ..

@[simp] theorem pc_continue (q : QueueConnectionsType) (e : EventLoop)
    (c : QueueConnectionElementType) (pc : Pc) (effects : List Effect) :
    (e.continue q c pc effects).2.pc = pc := rfl

end Rules

/-! ### What a step does in each place -/

section Places

variable {options : Options} {s t : Dispatching}

theorem loopNext_recv_switch (hpc : s.2.pc = .switch) (hstate : s.connection.state = .recv)
    (sys : Sys) : loopNext options s sys = some (s.2.continue s.1 s.connection .recv []) :=
  EventLoop.step_switch_recv hpc hstate

theorem loopNext_sendHeaders_switch (hpc : s.2.pc = .switch)
    (hstate : s.connection.state = .sendHeaders) (sys : Sys) :
    loopNext options s sys = s.2.sendHeadersCase options s.1 sys s.connection :=
  EventLoop.step_switch_sendHeaders hpc hstate

theorem loopNext_noBody (hpc : s.2.pc = .switch) (hstate : s.connection.state = .sendBody)
    (hfd : s.connection.bodyFd = -1) (sys : Sys) :
    loopNext options s sys = some (s.2.continue s.1
      { s.connection with state := .done, bodyOffset := 0 } .switch []) :=
  EventLoop.step_switch_noBody hpc hstate hfd

theorem loopNext_sendBody_switch (hpc : s.2.pc = .switch) (hstate : s.connection.state = .sendBody)
    (hfd : s.connection.bodyFd ≠ -1) (sys : Sys) :
    loopNext options s sys = some (s.2.continue s.1 s.connection .sendBody []) :=
  EventLoop.step_switch_sendBody hpc hstate hfd

theorem loopNext_done (hpc : s.2.pc = .switch) (hstate : s.connection.state = .done) (sys : Sys) :
    loopNext options s sys = s.2.doneCase s.1 sys s.connection :=
  EventLoop.step_switch_done hpc hstate

theorem loopNext_doneForClose (hpc : s.2.pc = .switch)
    (hstate : s.connection.state = .doneForClose) (sys : Sys) :
    loopNext options s sys = some (s.2.closeCase s.1) :=
  EventLoop.step_switch_doneForClose hpc hstate

theorem loopNext_recv (hpc : s.2.pc = .recv) (sys : Sys) :
    loopNext options s sys = (recvRequestTurn s.connection sys.recv).map fun turn =>
      s.2.continue s.1 turn.1 (if turn.2 then .recv else .switch)
        (effectOf .received (receivedBytes s.connection sys.recv)) :=
  EventLoop.step_recv hpc

theorem loopNext_sendHeaders (hpc : s.2.pc = .sendHeaders) (sys : Sys) :
    loopNext options s sys = (sendResponseHeadersTurn s.connection sys.send).map fun turn =>
      s.2.continue s.1 turn.connection (if turn.repeats then .sendHeaders else .switch)
        (effectOf .sent turn.accepted) :=
  EventLoop.step_sendHeaders hpc

theorem loopNext_sendBody (hpc : s.2.pc = .sendBody) (sys : Sys) :
    loopNext options s sys =
      some (s.2.continue s.1 (sendResponseFileTurn s.connection sys.bodyFile sys.send).connection
        (if (sendResponseFileTurn s.connection sys.bodyFile sys.send).repeats then .sendBody
          else .switch)
        (effectOf .sent (sendResponseFileTurn s.connection sys.bodyFile sys.send).accepted)) :=
  EventLoop.step_sendBody hpc

theorem loopNext_sendAll {sys : Sys} {buffer : Bytes} {leftToWrite : ℕ}
    (hpc : s.2.pc = .sendAll buffer leftToWrite) (h : loopNext options s sys = some t) :
    t = s.2.logAndClose s.1 s.connection ∨ ∃ leftToWrite' effects,
      t = s.2.continue s.1 s.connection (.sendAll buffer leftToWrite') effects := by
  simp only [loopNext, EventLoop.step, hpc] at h
  split at h
  · exact Or.inl (Option.some.inj h).symm
  · split at h
    · exact Or.inr ⟨_, _, (Option.some.inj h).symm⟩
    · exact Or.inl (Option.some.inj h).symm

theorem loopNext_ended (hpc : s.2.pc = .ended) (sys : Sys) : loopNext options s sys = none :=
  EventLoop.step_of_ended hpc

theorem loopNext_recv_blocked (hpc : s.2.pc = .recv) {sys : Sys} (hsys : sys.recv = .eagain) :
    loopNext options s sys = (recvRequestTurn s.connection .eagain).map fun turn =>
      s.2.continue s.1 turn.1 (if turn.2 then .recv else .switch) [] := by
  rw [loopNext_recv hpc, hsys]
  rfl

theorem loopNext_sendHeaders_left (hpc : s.2.pc = .sendHeaders) {sys : Sys}
    (hsys : sys.send = .eagain) (hbuilt : s.connection.responseBufferHeaders.isSome)
    (hleft : s.connection.responseBufferHeadersOffset ≠ s.connection.responseBufferHeadersLength) :
    loopNext options s sys = some (s.2.continue s.1 s.connection .switch []) := by
  obtain ⟨headers, hheaders⟩ := Option.isSome_iff_exists.mp hbuilt
  have hturn : sendResponseHeadersTurn s.connection .eagain = some ⟨s.connection, [], false⟩ := by
    unfold sendResponseHeadersTurn
    simp only [hheaders, Option.bind_eq_bind, Option.bind_some, if_neg hleft]
    rfl
  rw [loopNext_sendHeaders hpc, hsys, hturn]
  rfl

theorem loopNext_sendBody_left (hpc : s.2.pc = .sendBody) {sys : Sys} (hsys : sys.send = .eagain)
    (hleft : s.connection.bodyOffset ≠ s.connection.bodyLength) :
    loopNext options s sys = some (s.2.continue s.1 s.connection .switch []) := by
  rw [loopNext_sendBody hpc, hsys]
  unfold sendResponseFileTurn
  simp only [if_neg hleft]
  rfl

end Places

/-! ### Closing -/

section Closing

variable {options : Options} {s : Dispatching}

theorem closeCase_ended (q : QueueConnectionsType) (e : EventLoop) : (e.closeCase q).2.pc = .ended := by
  unfold EventLoop.closeCase
  split <;> rfl

theorem returns_doneForClose (hpc : s.2.pc = .switch) (hstate : s.connection.state = .doneForClose) :
    Returns options s := by
  refine (returns_iff_next (by simp [hpc]) fun sys _ => loopNext_doneForClose hpc hstate sys).mpr ?_
  exact returns_of_ended (closeCase_ended _ _)

theorem returns_logAndClose (q : QueueConnectionsType) (e : EventLoop)
    (c : QueueConnectionElementType) : Returns options (e.logAndClose q c) := by
  refine returns_doneForClose rfl ?_
  unfold EventLoop.logAndClose
  rw [connection_continue]

theorem returns_done (hpc : s.2.pc = .switch) (hstate : s.connection.state = .done) :
    Returns options s := by
  refine (returns_iff_step (by simp [hpc])).mpr fun sys _ => ?_
  rw [loopNext_done hpc hstate]
  unfold EventLoop.doneCase
  split
  · by_cases hexists : existsConnection s.1 s.2.clientFd
    · obtain ⟨index, hi⟩ := Option.isSome_iff_exists.mp hexists
      obtain ⟨q', hq'⟩ : ∃ q', updateQueueConnection s.1 s.2.clientFd sys.now sys.mem = some q' := by
        unfold updateQueueConnection
        rw [hi]
        exact ⟨_, rfl⟩
      rw [if_pos hexists, hq']
      exact ⟨_, rfl, returns_of_ended rfl⟩
    · rw [if_neg hexists]
      exact ⟨_, rfl, returns_of_ended rfl⟩
  · exact ⟨_, rfl, returns_logAndClose _ _ _⟩

/-- `sendAll` gives up on `EAGAIN`. -/
theorem returns_sendAll {buffer : Bytes} {leftToWrite : ℕ}
    (hpc : s.2.pc = .sendAll buffer leftToWrite) : Returns options s := by
  refine (returns_iff_next (by simp [hpc])
    (t := s.2.logAndClose s.1 (s.1.connections s.2.slot)) fun sys hsys => ?_).mpr
      (returns_logAndClose _ _ _)
  simp only [loopNext, EventLoop.step, hpc, hsys.2, sendAllTurn, ite_self]

end Closing

/-! ### The body -/

section Body

variable {options : Options} {s : Dispatching}

/-- The loop calls `sendResponseFile` for ever. -/
structure SpinsOnBody (s : Dispatching) : Prop where
  pc : s.2.pc = .switch ∨ s.2.pc = .sendBody
  state : s.connection.state = .sendBody
  left : ¬ BodyOut s.connection

theorem SpinsOnBody.not_returns (h : SpinsOnBody s) : ¬ Returns options s := by
  refine not_inevitable_of_invariant blocked_localSys (fun s h hended => ?_) (fun s t h hnext => ?_) h
  · rcases h.pc with hpc | hpc <;> rw [Dispatching.Ended, hpc] at hended <;> cases hended
  · obtain ⟨hfd, hoffset⟩ := not_or.mp h.left
    rcases h.pc with hpc | hpc
    · obtain rfl :=
        Option.some.inj ((loopNext_sendBody_switch hpc h.state hfd (localSys 0)).symm.trans hnext)
      exact ⟨Or.inr rfl, by rw [connection_continue]; exact h.state,
        by rw [connection_continue]; exact h.left⟩
    · obtain rfl := Option.some.inj ((loopNext_sendBody_left hpc rfl hoffset).symm.trans hnext)
      exact ⟨Or.inl rfl, by rw [connection_continue]; exact h.state,
        by rw [connection_continue]; exact h.left⟩

theorem returns_noBody (hpc : s.2.pc = .switch) (hstate : s.connection.state = .sendBody)
    (hfd : s.connection.bodyFd = -1) : Returns options s := by
  refine (returns_iff_next (by simp [hpc]) fun sys _ => loopNext_noBody hpc hstate hfd sys).mpr ?_
  exact returns_done rfl (by rw [connection_continue])

theorem returns_bodySent (hpc : s.2.pc = .sendBody)
    (hoffset : s.connection.bodyOffset = s.connection.bodyLength) : Returns options s := by
  refine (returns_iff_next (by simp [hpc]) (t := s.2.continue s.1
    (bodySent s.connection) .switch []) fun sys hsys => ?_).mpr ?_
  · rw [loopNext_sendBody hpc, hsys.2]
    unfold sendResponseFileTurn
    simp only [if_pos hoffset]
    rfl
  · exact returns_done rfl (by rw [connection_continue]; rfl)

theorem returns_sendBody (hpc : s.2.pc = .sendBody) (hstate : s.connection.state = .sendBody) :
    Returns options s ↔ BodyOut s.connection := by
  constructor
  · intro h
    by_contra hleft
    exact (SpinsOnBody.mk (Or.inr hpc) hstate hleft).not_returns h
  · intro hout
    by_cases hoffset : s.connection.bodyOffset = s.connection.bodyLength
    · exact returns_bodySent hpc hoffset
    · -- the handler returns, and the next turn sees that there is no body
      refine (returns_iff_next (by simp [hpc]) fun sys hsys =>
        loopNext_sendBody_left hpc hsys.2 hoffset).mpr (returns_noBody rfl ?_ ?_)
      · rw [connection_continue]
        exact hstate
      · rw [connection_continue]
        exact hout.resolve_right hoffset

theorem returns_sendBody_switch (hpc : s.2.pc = .switch) (hstate : s.connection.state = .sendBody) :
    Returns options s ↔ BodyOut s.connection := by
  by_cases hfd : s.connection.bodyFd = -1
  · exact iff_of_true (returns_noBody hpc hstate hfd) (Or.inl hfd)
  · rw [returns_iff_next (by simp [hpc]) fun sys _ => loopNext_sendBody_switch hpc hstate hfd sys,
      returns_sendBody rfl (by rw [connection_continue]; exact hstate), connection_continue]

end Body

/-! ### Processing the request again -/

/-- The request is accepted and answered with a response of `makeResponse`. -/
def GoesOn (options : Options) (env : RequestEnv) (c : QueueConnectionElementType) : Prop :=
  ∃ c', processRequest options env c = some (true, c') ∧
    supportedProtocol c'.protocolVersion ∧ ¬ isHello c'.path

section Processing

variable {options : Options} {env : RequestEnv} {c c' c₂ : QueueConnectionElementType} {valid : Bool}

theorem processRequest_sending (h : processRequest options env c = some (valid, c')) :
    c'.sending = c.sending := by
  obtain ⟨_, _, _, _, _, _, _, _, rfl⟩ := processRequest_inv h
  rfl

theorem GoesOn.congr (h : GoesOn options env c) (hbuffer : c₂.requestBuffer = c.requestBuffer) :
    GoesOn options env c₂ := by
  obtain ⟨c', hparse, hprotocol, hhello⟩ := h
  obtain ⟨block, line, method, path, protocolVersion, hblock, hpeer, hcrlf, hscan, hmethod⟩ :=
    processRequest_accepted hparse
  -- the answer to a record with this buffer
  have hscanned : ∀ {c₁ : QueueConnectionElementType}, c₁.requestBuffer = some block →
      ∃ c', processRequest options env c₁ = some (decide (strToMethod method ≠ .unsupported), c') ∧
        c'.method = strToMethod method ∧ c'.path = some path ∧
        c'.protocolVersion = protocolVersion :=
    fun hblock => processRequest_scanned hblock hpeer hcrlf hscan
  obtain ⟨c₁, hc₁, -, hpath₁, hversion₁⟩ := hscanned hblock
  obtain ⟨-, rfl⟩ := Prod.mk.inj (Option.some.inj (hc₁.symm.trans hparse))
  obtain ⟨c₂', hc₂, -, hpath₂, hversion₂⟩ := hscanned (hbuffer.trans hblock)
  rw [decide_eq_true hmethod] at hc₂
  exact ⟨c₂', hc₂, by rwa [hversion₂, ← hversion₁], by rwa [hpath₂, ← hpath₁]⟩

/-- Once accepted, the request is accepted again. -/
theorem not_refused (hprotocol : supportedProtocol c'.protocolVersion) (hhello : ¬ isHello c'.path) :
    ¬ Refused true c' := by
  rintro (hvalid | hprotocol' | hhello')
  · exact hvalid rfl
  · exact hprotocol' hprotocol
  · exact hhello hhello'

theorem goesOn_of_not_refused (hparse : processRequest options env c = some (valid, c'))
    (hon : ¬ Refused valid c') : GoesOn options env c' := by
  unfold Refused at hon
  simp only [not_or, not_not] at hon
  obtain ⟨rfl, hprotocol, hhello⟩ := hon
  have hon : GoesOn options env c := ⟨c', hparse, hprotocol, hhello⟩
  exact hon.congr (congrArg Sending.requestBuffer (processRequest_sending hparse))

variable {q : QueueConnectionsType} {e : EventLoop} {sys : Sys}

theorem unsupportedProtocolResponse_ne_nil (protocolVersion : Bytes) :
    unsupportedProtocolResponse protocolVersion ≠ [] := by
  unfold unsupportedProtocolResponse
  rw [Ne, List.take_eq_nil_iff, List.append_assoc, List.append_assoc, List.append_eq_nil_iff]
  rintro (hzero | ⟨hstart, -⟩)
  · cases hzero
  · revert hstart
    decide +kernel

theorem sendHeadersCase_parses {t : Dispatching} (hnil : c.requestHeaders = [])
    (h : e.sendHeadersCase options q sys c = some t) :
    ∃ valid c', processRequest options sys.request c = some (valid, c') := by
  unfold EventLoop.sendHeadersCase at h
  rw [if_pos hnil] at h
  obtain ⟨⟨valid, c'⟩, hparse, -⟩ := Option.bind_eq_some_iff.mp h
  exact ⟨valid, c', hparse⟩

theorem sendHeadersCase_refused (hnil : c.requestHeaders = [])
    (hparse : processRequest options sys.request c = some (valid, c')) (hrefused : Refused valid c') :
    ∃ buffer, buffer ≠ [] ∧ e.sendHeadersCase options q sys c = some (e.answer q c' buffer) := by
  unfold EventLoop.sendHeadersCase
  rw [if_pos hnil, hparse, Option.bind_some]
  simp only
  by_cases hvalid : valid
  · rw [if_neg (not_not_intro hvalid)]
    by_cases hprotocol : supportedProtocol c'.protocolVersion
    · have hhello := (hrefused.resolve_left (not_not_intro hvalid)).resolve_left
        (not_not_intro hprotocol)
      rw [if_neg (not_not_intro hprotocol), if_pos hhello]
      exact ⟨_, by decide +kernel, rfl⟩
    · rw [if_pos hprotocol]
      exact ⟨_, unsupportedProtocolResponse_ne_nil _, rfl⟩
  · rw [if_pos hvalid]
    exact ⟨_, by decide +kernel, rfl⟩

theorem sendHeadersCase_goesOn (hnil : c.requestHeaders = [])
    (hparse : processRequest options sys.request c = some (valid, c')) (hon : ¬ Refused valid c') :
    e.sendHeadersCase options q sys c = e.respond options q sys c' := by
  unfold Refused at hon
  simp only [not_or, not_not] at hon
  obtain ⟨hvalid, hprotocol, hhello⟩ := hon
  unfold EventLoop.sendHeadersCase
  rw [if_pos hnil, hparse, Option.bind_some]
  simp only
  rw [if_neg (not_not_intro hvalid), if_neg (not_not_intro hprotocol), if_neg hhello]

theorem sendHeadersCase_processed (hne : c.requestHeaders ≠ []) :
    e.sendHeadersCase options q sys c = e.respond options q sys c := if_neg hne

theorem respond_built (hbuilt : c.responseBufferHeaders.isSome) :
    e.respond options q sys c = some (e.continue q c .sendHeaders []) := by
  unfold EventLoop.respond
  obtain ⟨headers, hheaders⟩ := Option.isSome_iff_exists.mp hbuilt
  rw [hheaders]
  rfl

end Processing

/-! ### A response just built -/

theorem printed_offset {size : ℕ} {texts : List Bytes} {printed printed' : Printed}
    (h : texts.foldlM (Printed.append size) printed = some printed') :
    printed'.offset = printed.offset + texts.flatten.length := by
  induction texts generalizing printed with
  | nil =>
    obtain rfl := Option.some.inj h
    rfl
  | cons text texts ih =>
    rw [List.foldlM_cons] at h
    obtain ⟨printed₁, hstep, h⟩ := Option.bind_eq_some_iff.mp h
    unfold Printed.append at hstep
    split at hstep
    · cases hstep
    · obtain rfl := Option.some.inj hstep
      rw [ih h, List.flatten_cons, List.length_append, Nat.add_assoc]

theorem responseHeaderTexts_ne_nil (c : QueueConnectionElementType)
    (mimeType lastModifiedDate currentDate : Bytes) :
    (responseHeaderTexts c mimeType lastModifiedDate currentDate).flatten.length ≠ 0 := by
  unfold responseHeaderTexts
  have hspace : (bytes " ").length = 1 := by decide +kernel
  simp only [List.flatten_append, List.flatten_cons, List.flatten_nil, List.length_append,
    List.length_nil, hspace]
  omega

theorem makeResponse_unsent {options : Options} {env : ResponseEnv} {disk : Disk}
    {c : QueueConnectionElementType} {built : Built}
    (h : makeResponse options env disk c = some built) :
    built.connection.responseBufferHeaders.isSome ∧
      built.connection.responseBufferHeadersOffset ≠
        built.connection.responseBufferHeadersLength ∧
      built.connection.requestHeaders = c.requestHeaders ∧
      built.connection.requestBuffer = c.requestBuffer := by
  obtain ⟨-, -, file, code, size, mimeType, lastModifiedDate, currentDate, printed, encoded, -, -,
    hsize, -, hencoded, -, -, hprinted, rfl⟩ := makeResponse_inv h
  obtain ⟨bodyFd, size', encoding, -, hconnection⟩ := encodeBody_inv hsize rfl hencoded
  have hoffset := printed_offset hprinted
  have hne := responseHeaderTexts_ne_nil encoded.connection mimeType lastModifiedDate currentDate
  refine ⟨rfl, ?_, ?_, ?_⟩
  · show 0 ≠ printed.offset
    rw [hoffset, Nat.zero_add]
    exact hne.symm
  · simp only [hconnection]
  · simp only [hconnection]

/-! ### The header -/

section Headers

variable {options : Options} {env : RequestEnv} {s : Dispatching}

/-- The loop calls `sendResponseHeaders` for ever, processing the request again before each call if it
has no header lines. -/
structure SpinsOnHeaders (options : Options) (env : RequestEnv) (s : Dispatching) : Prop where
  pc : s.2.pc = .switch ∨ s.2.pc = .sendHeaders
  state : s.connection.state = .sendHeaders
  built : s.connection.responseBufferHeaders.isSome
  left : s.connection.responseBufferHeadersOffset ≠ s.connection.responseBufferHeadersLength
  again : s.connection.requestHeaders ≠ [] ∨ GoesOn options env s.connection

theorem SpinsOnHeaders.continue {c : QueueConnectionElementType} {pc : Pc}
    (h : SpinsOnHeaders options env s) (hsending : c.sending = s.connection.sending)
    (hagain : c.requestHeaders ≠ [] ∨ GoesOn options env c)
    (hpc : pc = .switch ∨ pc = .sendHeaders) (q : QueueConnectionsType) (e : EventLoop) :
    SpinsOnHeaders options env (e.continue q c pc []) := by
  have hstate : c.state = s.connection.state := congrArg Sending.state hsending
  have hbuilt : c.responseBufferHeaders = s.connection.responseBufferHeaders :=
    congrArg Sending.responseBufferHeaders hsending
  have hoffset : c.responseBufferHeadersOffset = s.connection.responseBufferHeadersOffset :=
    congrArg Sending.responseBufferHeadersOffset hsending
  have hlength : c.responseBufferHeadersLength = s.connection.responseBufferHeadersLength :=
    congrArg Sending.responseBufferHeadersLength hsending
  constructor
  · exact hpc
  · rw [connection_continue, hstate]
    exact h.state
  · rw [connection_continue, hbuilt]
    exact h.built
  · rw [connection_continue, hoffset, hlength]
    exact h.left
  · rw [connection_continue]
    exact hagain

theorem SpinsOnHeaders.not_returns (h : SpinsOnHeaders options env s) : ¬ Returns options s := by
  refine not_inevitable_of_invariant (a := { localSys 0 with request := env }) ⟨rfl, rfl⟩
    (fun s h hended => ?_) (fun s t h hnext => ?_) h
  · rcases h.pc with hpc | hpc <;> rw [Dispatching.Ended, hpc] at hended <;> cases hended
  · rcases h.pc with hpc | hpc
    · rw [loopNext_sendHeaders_switch hpc h.state] at hnext
      by_cases hnil : s.connection.requestHeaders = []
      · -- the request is processed once more, and accepted
        have hon := h.again.resolve_left (not_not_intro hnil)
        obtain ⟨c', hparse, hprotocol, hhello⟩ := hon
        have hsending := processRequest_sending hparse
        have hnot := not_refused hprotocol hhello
        have hbuilt : c'.responseBufferHeaders.isSome := by
          rw [show c'.responseBufferHeaders = s.connection.responseBufferHeaders from
            congrArg Sending.responseBufferHeaders hsending]
          exact h.built
        have hcase : s.2.sendHeadersCase options s.1 { localSys 0 with request := env }
            s.connection = s.2.respond options s.1 { localSys 0 with request := env } c' :=
          sendHeadersCase_goesOn hnil hparse hnot
        obtain rfl := Option.some.inj ((hcase.trans (respond_built hbuilt)).symm.trans hnext)
        exact h.continue hsending (Or.inr (goesOn_of_not_refused hparse hnot)) (Or.inr rfl) _ _
      · have hcase : s.2.sendHeadersCase options s.1 { localSys 0 with request := env }
            s.connection = s.2.respond options s.1 { localSys 0 with request := env } s.connection :=
          sendHeadersCase_processed hnil
        obtain rfl := Option.some.inj ((hcase.trans (respond_built h.built)).symm.trans hnext)
        exact h.continue rfl h.again (Or.inr rfl) _ _
    · have hstep : loopNext options s { localSys 0 with request := env } =
          some (s.2.continue s.1 s.connection .switch []) :=
        loopNext_sendHeaders_left hpc rfl h.built h.left
      obtain rfl := Option.some.inj (hstep.symm.trans hnext)
      exact h.continue rfl h.again (Or.inl rfl) _ _

theorem returns_sendHeaders (hpc : s.2.pc = .sendHeaders) (hstate : s.connection.state = .sendHeaders)
    (hagain : s.connection.requestHeaders ≠ [] ∨ ∃ env, GoesOn options env s.connection) :
    Returns options s ↔ SentOut s.connection := by
  cases hheaders : s.connection.responseBufferHeaders with
  | none =>
    refine iff_of_false (fun h => ?_) fun h => ?_
    · obtain ⟨t, ht, -⟩ := (returns_iff_step (by simp [hpc])).mp h (localSys 0) blocked_localSys
      rw [loopNext_sendHeaders hpc] at ht
      simp [sendResponseHeadersTurn, hheaders] at ht
    · have hbuilt := h.1.1
      rw [hheaders] at hbuilt
      cases hbuilt
  | some headers =>
    have hbuilt : s.connection.responseBufferHeaders.isSome := by
      rw [hheaders]
      rfl
    by_cases hoffset :
        s.connection.responseBufferHeadersOffset = s.connection.responseBufferHeadersLength
    · -- the header is out: on to the body
      rw [returns_iff_next (by simp [hpc]) (t := s.2.continue s.1 { s.connection with
        state := .sendBody, responseBufferHeadersOffset := 0 } .switch []) fun sys hsys => ?_,
        returns_sendBody_switch rfl (by rw [connection_continue]), connection_continue]
      · exact (and_iff_right (⟨hbuilt, hoffset⟩ : HeadersOut s.connection)).symm
      · have hturn : sendResponseHeadersTurn s.connection .eagain = some ⟨{ s.connection with
            state := .sendBody, responseBufferHeadersOffset := 0 }, [], false⟩ := by
          unfold sendResponseHeadersTurn
          simp only [hheaders, Option.bind_eq_bind, Option.bind_some, if_pos hoffset]
          rfl
        rw [loopNext_sendHeaders hpc, hsys.2, hturn]
        rfl
    · refine iff_of_false (fun h => ?_) fun h => hoffset h.1.2
      obtain ⟨env, henv⟩ : ∃ env, s.connection.requestHeaders ≠ [] ∨
          GoesOn options env s.connection := by
        rcases hagain with hne | ⟨env, hon⟩
        · exact ⟨localEnv, Or.inl hne⟩
        · exact ⟨env, Or.inr hon⟩
      exact (SpinsOnHeaders.mk (Or.inr hpc) hstate hbuilt hoffset henv).not_returns h

theorem returns_respond {c : QueueConnectionElementType} (q : QueueConnectionsType) (e : EventLoop)
    (sys : Sys) (hstate : c.state = .sendHeaders)
    (hagain : c.requestHeaders ≠ [] ∨ ∃ env, GoesOn options env c) :
    (∃ t, e.respond options q sys c = some t ∧ Returns options t) ↔ SentOut c := by
  by_cases hbuilt : c.responseBufferHeaders.isSome
  · rw [respond_built hbuilt]
    simp only [Option.some.injEq, exists_eq_left']
    rw [returns_sendHeaders rfl (by rw [connection_continue]; exact hstate)
      (by rw [connection_continue]; exact hagain), connection_continue]
  · refine iff_of_false ?_ fun h => hbuilt h.1.1
    rintro ⟨t, ht, hreturns⟩
    have hnone : c.responseBufferHeaders = none := by simpa using hbuilt
    unfold EventLoop.respond at ht
    rw [if_pos hnone] at ht
    obtain ⟨built, hmake, rfl⟩ := Option.map_eq_some_iff.mp ht
    obtain ⟨hsome, hoffset, hheaders, hbuffer⟩ := makeResponse_unsent hmake
    have hagain' : built.connection.requestHeaders ≠ [] ∨
        ∃ env, GoesOn options env built.connection := by
      rcases hagain with hne | ⟨env, hon⟩
      · rw [hheaders]
        exact Or.inl hne
      · exact Or.inr ⟨env, hon.congr hbuffer⟩
    rw [returns_sendHeaders rfl (by
        rw [connection_continue, (makeResponse_keeps hmake).2]
        exact hstate) (by rw [connection_continue]; exact hagain'),
      connection_continue] at hreturns
    exact hoffset hreturns.1.2

theorem returns_sendHeaders_switch (hpc : s.2.pc = .switch)
    (hstate : s.connection.state = .sendHeaders) :
    Returns options s ↔ SendHeadersYields options s.connection := by
  rw [returns_iff_step (by simp [hpc])]
  simp only [loopNext_sendHeaders_switch hpc hstate]
  unfold SendHeadersYields
  by_cases hnil : s.connection.requestHeaders = []
  · rw [if_pos hnil]
    constructor
    · intro h env
      obtain ⟨t, ht, hreturns⟩ := h { localSys 0 with request := env } ⟨rfl, rfl⟩
      obtain ⟨⟨valid, c'⟩, hparse⟩ : ∃ r, processRequest options env s.connection = some r := by
        unfold EventLoop.sendHeadersCase at ht
        rw [if_pos hnil] at ht
        obtain ⟨r, hparse, -⟩ := Option.bind_eq_some_iff.mp ht
        exact ⟨r, hparse⟩
      refine ⟨valid, c', hparse, or_iff_not_imp_left.mpr fun hon => ?_⟩
      have hcase : s.2.sendHeadersCase options s.1 { localSys 0 with request := env }
          s.connection = s.2.respond options s.1 { localSys 0 with request := env } c' :=
        sendHeadersCase_goesOn hnil hparse hon
      rw [hcase] at ht
      exact (returns_respond s.1 s.2 _ ((processRequest_keeps hparse).2.trans hstate)
        (Or.inr ⟨env, goesOn_of_not_refused hparse hon⟩)).mp ⟨t, ht, hreturns⟩
    · intro h sys _
      obtain ⟨valid, c', hparse, hout⟩ := h sys.request
      by_cases hrefused : Refused valid c'
      · obtain ⟨buffer, -, hcase⟩ := sendHeadersCase_refused (q := s.1) (e := s.2) hnil hparse hrefused
        exact ⟨_, hcase, returns_sendAll rfl⟩
      · rw [sendHeadersCase_goesOn hnil hparse hrefused]
        exact (returns_respond s.1 s.2 sys ((processRequest_keeps hparse).2.trans hstate)
          (Or.inr ⟨_, goesOn_of_not_refused hparse hrefused⟩)).mpr (hout.resolve_left hrefused)
  · rw [if_neg hnil]
    simp only [sendHeadersCase_processed hnil, returns_respond s.1 s.2 _ hstate (Or.inl hnil)]
    exact ⟨fun h => h (localSys 0) blocked_localSys, fun h _ _ => h⟩

end Headers

/-! ### The request -/

section Receiving

variable {options : Options} {s : Dispatching}

/-- The request is complete, and its terminating NUL fits. -/
def Ready (c c' : QueueConnectionElementType) : Prop :=
  ∃ buffer, c.requestBuffer = some buffer ∧ isRequestComplete buffer = some true ∧
    finishRequest c buffer = some c'

theorem recvRequestTurn_ready {c c' : QueueConnectionElementType} (h : Ready c c') :
    recvRequestTurn c .eagain = some (c', false) := by
  obtain ⟨buffer, hbuffer, hcomplete, hfinish⟩ := h
  unfold recvRequestTurn
  simp only [hbuffer, Option.bind_eq_bind, Option.bind_some, hcomplete, if_true, hfinish]
  rfl

theorem recvRequestTurn_not_ready {c : QueueConnectionElementType} (h : ∀ c', ¬ Ready c c')
    {turn : QueueConnectionElementType × Bool} (hturn : recvRequestTurn c .eagain = some turn) :
    turn = (c, false) := by
  unfold recvRequestTurn at hturn
  obtain ⟨buffer, hbuffer, hturn⟩ := Option.bind_eq_some_iff.mp hturn
  obtain ⟨complete, hcomplete, hturn⟩ := Option.bind_eq_some_iff.mp hturn
  cases complete with
  | true =>
    obtain ⟨c', hfinish, -⟩ := Option.bind_eq_some_iff.mp hturn
    exact absurd ⟨buffer, hbuffer, hcomplete, hfinish⟩ (h c')
  | false => exact (Option.some.inj hturn).symm

theorem Ready.state {c c' : QueueConnectionElementType} (h : Ready c c') :
    c'.state = .sendHeaders := by
  obtain ⟨buffer, -, -, hfinish⟩ := h
  unfold finishRequest at hfinish
  split at hfinish
  · obtain rfl := Option.some.inj hfinish
    rfl
  · cases hfinish

theorem recvYields_iff (c : QueueConnectionElementType) :
    RecvYields options c ↔ ∃ c', Ready c c' ∧ SendHeadersYields options c' := by
  constructor
  · rintro ⟨buffer, c', hbuffer, hcomplete, hfinish, hyields⟩
    exact ⟨c', ⟨buffer, hbuffer, hcomplete, hfinish⟩, hyields⟩
  · rintro ⟨c', ⟨buffer, hbuffer, hcomplete, hfinish⟩, hyields⟩
    exact ⟨buffer, c', hbuffer, hcomplete, hfinish, hyields⟩

/-- The loop calls `recvRequest` for ever. -/
structure SpinsOnRecv (s : Dispatching) : Prop where
  pc : s.2.pc = .switch ∨ s.2.pc = .recv
  state : s.connection.state = .recv
  left : ∀ c', ¬ Ready s.connection c'

theorem SpinsOnRecv.not_returns (h : SpinsOnRecv s) : ¬ Returns options s := by
  refine not_inevitable_of_invariant blocked_localSys (fun s h hended => ?_) (fun s t h hnext => ?_) h
  · rcases h.pc with hpc | hpc <;> rw [Dispatching.Ended, hpc] at hended <;> cases hended
  · rcases h.pc with hpc | hpc
    · rw [loopNext_recv_switch hpc h.state] at hnext
      obtain rfl := Option.some.inj hnext
      exact ⟨Or.inr rfl, by rw [connection_continue]; exact h.state,
        by rw [connection_continue]; exact h.left⟩
    · rw [loopNext_recv_blocked hpc rfl] at hnext
      obtain ⟨turn, hturn, rfl⟩ := Option.map_eq_some_iff.mp hnext
      obtain rfl := recvRequestTurn_not_ready h.left hturn
      exact ⟨Or.inl rfl, by rw [connection_continue]; exact h.state,
        by rw [connection_continue]; exact h.left⟩

theorem returns_recv (hpc : s.2.pc = .recv) (hstate : s.connection.state = .recv) :
    Returns options s ↔ RecvYields options s.connection := by
  rw [recvYields_iff]
  by_cases hready : ∃ c', Ready s.connection c'
  · obtain ⟨c', hc'⟩ := hready
    have hturn := recvRequestTurn_ready hc'
    rw [returns_iff_next (by simp [hpc]) (t := s.2.continue s.1 c' .switch [])
      fun sys hsys => by rw [loopNext_recv_blocked hpc hsys.1, hturn]; rfl,
      returns_sendHeaders_switch rfl (by rw [connection_continue]; exact hc'.state),
      connection_continue]
    refine ⟨fun hyields => ⟨c', hc', hyields⟩, ?_⟩
    rintro ⟨c'', hc'', hyields⟩
    obtain ⟨rfl, -⟩ :=
      Prod.mk.inj (Option.some.inj ((recvRequestTurn_ready hc'').symm.trans hturn))
    exact hyields
  · refine iff_of_false (fun h => ?_) fun ⟨c', hc', _⟩ => hready ⟨c', hc'⟩
    exact (SpinsOnRecv.mk (Or.inr hpc) hstate (not_exists.mp hready)).not_returns h

theorem returns_recv_switch (hpc : s.2.pc = .switch) (hstate : s.connection.state = .recv) :
    Returns options s ↔ RecvYields options s.connection := by
  rw [returns_iff_next (by simp [hpc]) fun sys _ => loopNext_recv_switch hpc hstate sys,
    returns_recv rfl (by rw [connection_continue]; exact hstate), connection_continue]

end Receiving

/-! ### The whole loop -/

/-- Where the loop stands and the state of the connection belong together. -/
def InStep (options : Options) (s : Dispatching) : Prop :=
  match s.2.pc with
  | .recv => s.connection.state = .recv
  | .sendHeaders => s.connection.state = .sendHeaders ∧
      (s.connection.requestHeaders ≠ [] ∨ ∃ env, GoesOn options env s.connection)
  | .sendBody => s.connection.state = .sendBody
  | _ => True

section Loop

variable {options : Options} {s t : Dispatching} {sys : Sys}

theorem inStep_switch {q : QueueConnectionsType} {e : EventLoop} {c : QueueConnectionElementType}
    {effects : List Effect} : InStep options (e.continue q c .switch effects) := trivial

theorem inStep_sendHeaders {q : QueueConnectionsType} {e : EventLoop}
    {c : QueueConnectionElementType} {effects : List Effect} (hstate : c.state = .sendHeaders)
    (hagain : c.requestHeaders ≠ [] ∨ ∃ env, GoesOn options env c) :
    InStep options (e.continue q c .sendHeaders effects) := by
  unfold InStep
  simp only [pc_continue, connection_continue]
  exact ⟨hstate, hagain⟩

theorem respond_inStep {q : QueueConnectionsType} {e : EventLoop} {c : QueueConnectionElementType}
    (hstate : c.state = .sendHeaders)
    (hagain : c.requestHeaders ≠ [] ∨ ∃ env, GoesOn options env c)
    (h : e.respond options q sys c = some t) : InStep options t := by
  unfold EventLoop.respond at h
  split at h
  · obtain ⟨built, hmake, rfl⟩ := Option.map_eq_some_iff.mp h
    obtain ⟨-, -, hheaders, hbuffer⟩ := makeResponse_unsent hmake
    refine inStep_sendHeaders ((makeResponse_keeps hmake).2.trans hstate) ?_
    rcases hagain with hne | ⟨env, hon⟩
    · rw [hheaders]
      exact Or.inl hne
    · exact Or.inr ⟨env, hon.congr hbuffer⟩
  · obtain rfl := Option.some.inj h
    exact inStep_sendHeaders hstate hagain

theorem sendHeadersCase_inStep {q : QueueConnectionsType} {e : EventLoop}
    {c : QueueConnectionElementType} (hstate : c.state = .sendHeaders)
    (h : e.sendHeadersCase options q sys c = some t) : InStep options t := by
  by_cases hnil : c.requestHeaders = []
  · obtain ⟨valid, c', hparse⟩ := sendHeadersCase_parses hnil h
    by_cases hrefused : Refused valid c'
    · obtain ⟨buffer, -, hcase⟩ := sendHeadersCase_refused (q := q) (e := e) hnil hparse hrefused
      obtain rfl := Option.some.inj (hcase.symm.trans h)
      exact trivial
    · rw [sendHeadersCase_goesOn hnil hparse hrefused] at h
      exact respond_inStep ((processRequest_keeps hparse).2.trans hstate)
        (Or.inr ⟨_, goesOn_of_not_refused hparse hrefused⟩) h
  · rw [sendHeadersCase_processed hnil] at h
    exact respond_inStep hstate (Or.inl hnil) h

theorem inStep_sendBody {q : QueueConnectionsType} {e : EventLoop} {c : QueueConnectionElementType}
    {effects : List Effect} (hstate : c.state = .sendBody) :
    InStep options (e.continue q c .sendBody effects) := by
  unfold InStep
  simp only [pc_continue, connection_continue]
  exact hstate

theorem inStep_recv {q : QueueConnectionsType} {e : EventLoop} {c : QueueConnectionElementType}
    {effects : List Effect} (hstate : c.state = .recv) :
    InStep options (e.continue q c .recv effects) := by
  unfold InStep
  simp only [pc_continue, connection_continue]
  exact hstate

theorem doneCase_inStep {q : QueueConnectionsType} {e : EventLoop} {c : QueueConnectionElementType}
    (h : e.doneCase q sys c = some t) : InStep options t := by
  obtain ⟨q', e'⟩ := t
  rcases EventLoop.doneCase_cases h with ⟨-, -, -, rfl⟩ | ⟨-, -, -, rfl⟩ | ⟨-, heq⟩
  · exact trivial
  · exact trivial
  · rw [heq]
    exact inStep_switch

/-- **What every step keeps.** -/
theorem inStep_step (h : InStep options s) (hnext : loopNext options s sys = some t) :
    InStep options t := by
  unfold InStep at h
  cases hpc : s.2.pc with
  | «switch» =>
    cases hstate : s.connection.state with
    | recv =>
      rw [loopNext_recv_switch hpc hstate] at hnext
      obtain rfl := Option.some.inj hnext
      exact inStep_recv hstate
    | sendHeaders =>
      rw [loopNext_sendHeaders_switch hpc hstate] at hnext
      exact sendHeadersCase_inStep hstate hnext
    | sendBody =>
      by_cases hfd : s.connection.bodyFd = -1
      · rw [loopNext_noBody hpc hstate hfd] at hnext
        obtain rfl := Option.some.inj hnext
        exact inStep_switch
      · rw [loopNext_sendBody_switch hpc hstate hfd] at hnext
        obtain rfl := Option.some.inj hnext
        exact inStep_sendBody hstate
    | done =>
      rw [loopNext_done hpc hstate] at hnext
      exact doneCase_inStep hnext
    | doneForClose =>
      rw [loopNext_doneForClose hpc hstate] at hnext
      obtain rfl := Option.some.inj hnext
      unfold InStep
      rw [closeCase_ended]
      exact trivial
  | recv =>
    rw [hpc] at h
    rw [loopNext_recv hpc] at hnext
    obtain ⟨⟨c, repeats⟩, hturn, rfl⟩ := Option.map_eq_some_iff.mp hnext
    cases repeats with
    | false => exact inStep_switch
    | true => exact inStep_recv (((recvRequestTurn_keeps hturn).2 rfl).trans h)
  | sendHeaders =>
    rw [hpc] at h
    rw [loopNext_sendHeaders hpc] at hnext
    obtain ⟨turn, hturn, rfl⟩ := Option.map_eq_some_iff.mp hnext
    by_cases hrepeats : turn.repeats = true
    · obtain ⟨offset, state, hkeeps, hwritten⟩ := sendResponseHeadersTurn_inv hturn
      rw [if_pos hrepeats, hwritten]
      refine inStep_sendHeaders ((hkeeps hrepeats).trans h.1) ?_
      exact h.2.imp_right fun ⟨env, hon⟩ => ⟨env, hon.congr rfl⟩
    · rw [if_neg hrepeats]
      exact inStep_switch
  | sendBody =>
    rw [hpc] at h
    rw [loopNext_sendBody hpc] at hnext
    obtain rfl := Option.some.inj hnext
    by_cases hrepeats :
        (sendResponseFileTurn s.connection sys.bodyFile sys.send).repeats = true
    · rw [if_pos hrepeats]
      exact inStep_sendBody (((sendResponseFileTurn_keeps _ _ _).2 hrepeats).trans h)
    · rw [if_neg hrepeats]
      exact inStep_switch
  | sendAll buffer leftToWrite =>
    rcases loopNext_sendAll hpc hnext with rfl | ⟨leftToWrite', effects, rfl⟩
    · exact inStep_switch
    · exact trivial
  | ended =>
    rw [loopNext_ended hpc] at hnext
    cases hnext

/-- The loop ends exactly where it yields. -/
theorem returns_iff_of_inStep (h : InStep options s) : Returns options s ↔ Yields options s := by
  unfold InStep at h
  unfold Yields
  cases hpc : s.2.pc with
  | ended => exact iff_of_true (returns_of_ended hpc) trivial
  | sendAll buffer leftToWrite => exact iff_of_true (returns_sendAll hpc) trivial
  | recv =>
    rw [hpc] at h
    exact returns_recv hpc h
  | sendHeaders =>
    rw [hpc] at h
    exact returns_sendHeaders hpc h.1 h.2
  | sendBody =>
    rw [hpc] at h
    exact returns_sendBody hpc h
  | «switch» =>
    cases hstate : s.connection.state with
    | recv => exact returns_recv_switch hpc hstate
    | sendHeaders => exact returns_sendHeaders_switch hpc hstate
    | sendBody => exact returns_sendBody_switch hpc hstate
    | done => exact iff_of_true (returns_done hpc hstate) trivial
    | doneForClose => exact iff_of_true (returns_doneForClose hpc hstate) trivial

/-- **A blocked socket.** From the state that any run of the loop, for any record and with any
outcomes of the system calls, has come to when the socket blocks, the loop ends on every script
exactly when it stands where nothing more is expected of the socket. -/
theorem returns_iff_yields {q : QueueConnectionsType} {clientFd slot : ℕ}
    {h : List (Transition Dispatching Sys)}
    (hrun : Run (fun s sys t => loopNext options s sys = some t) (q, .start clientFd slot) h s) :
    Returns options s ↔ Yields options s := by
  have hinit : InStep options (q, .start clientFd slot) := trivial
  exact returns_iff_of_inStep
    (hrun.invariant hinit fun _ _ _ hnext hin => inStep_step hin hnext)

end Loop

/-! ### A slow client -/

/-- A client that has sent nothing yet. -/
def quietClient : Dispatching :=
  (createQueueConnections.setConnection 0 (freshConnection 5 0 .zeroed), .start 5 0)

/-- The thread is caught in its loop. -/
theorem not_returns_quietClient :
    ¬ ∀ (options : Options) (q : QueueConnectionsType) (clientFd slot : ℕ),
      Returns options (q, .start clientFd slot) := by
  intro h
  have hspins : SpinsOnRecv quietClient := by
    refine ⟨Or.inl rfl, by decide +kernel, fun c' hc' => ?_⟩
    obtain ⟨buffer, hbuffer, hcomplete, -⟩ := hc'
    have hempty : quietClient.connection.requestBuffer = some (RequestBlock.zeroed).val := by
      decide +kernel
    obtain rfl := Option.some.inj (hempty.symm.trans hbuffer)
    revert hcomplete
    decide +kernel
  exact hspins.not_returns (h wwwOptions quietClient.1 5 0)

/-- A client whose response is sent is let go. -/
theorem returns_sentClient :
    Returns wwwOptions (createQueueConnections.setConnection 0
      { freshConnection 5 0 .zeroed with state := .done }, .start 5 0) :=
  (returns_iff_yields .nil).mpr trivial

end UbServer

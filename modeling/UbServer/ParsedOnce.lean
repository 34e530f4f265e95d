import UbServer.BlockedSocket

/-!
# Parsing a request once

The loop of one client from the end of `recvRequest` to the reset or the removal of its record, and
the calls of `processRequest` on the way.

* `ParsedOnce`: one call, and no other step assigns `path`, `absolutePath` or `requestBody`.
* `parsedOnce_iff`: the runs for which that is so. A header that `send` does not take whole brings a
  request without header nodes back to `processRequest`.
-/

namespace UbServer

open CString Runs QueueConnectionsType

/-- The next step calls `processRequest`. -/
def CallsProcessRequest (s : Dispatching) : Prop :=
  s.2.pc = .switch ∧ s.connection.state = .sendHeaders ∧ s.connection.requestHeaders = []

instance : DecidablePred CallsProcessRequest := fun s =>
  inferInstanceAs (Decidable (s.2.pc = .switch ∧ _ ∧ _))

/-- `send` reports `EAGAIN` with a part of the header left, for a request without header nodes. -/
def BlocksHeader (s : Dispatching) (sys : Sys) : Prop :=
  s.2.pc = .sendHeaders ∧ sys.send = .eagain ∧ s.connection.requestHeaders = [] ∧
    s.connection.responseBufferHeadersOffset ≠ s.connection.responseBufferHeadersLength

instance (s : Dispatching) (sys : Sys) : Decidable (BlocksHeader s sys) :=
  inferInstanceAs (Decidable (s.2.pc = .sendHeaders ∧ _ ∧ _ ∧ _))

/-- The strings that `processRequest` allocates and `freeConnection` releases. -/
def requestTexts (c : QueueConnectionElementType) : Option Bytes × Option Bytes × Option Bytes :=
  (c.path, c.absolutePath, c.requestBody)

/-- **A request is parsed once**: the run calls `processRequest` once, a call that is due in its
last state included, and no other step before the reset or the removal assigns what it allocates. -/
structure ParsedOnce (h : List (Transition Dispatching Sys)) (s : Dispatching) : Prop where
  once : visits CallsProcessRequest h s = 1
  kept : ∀ e ∈ h, ¬ CallsProcessRequest e.pre → e.post.2.pc ≠ .ended →
    requestTexts e.post.connection = requestTexts e.pre.connection

/-! ### What the steps write -/

section Writes

variable {options : Options} {c c' : QueueConnectionElementType}

theorem makeResponse_requestTexts {env : ResponseEnv} {disk : Disk} {built : Built}
    (h : makeResponse options env disk c = some built) :
    requestTexts built.connection = requestTexts c := by
  obtain ⟨-, -, file, code, size, -, -, -, printed, encoded, -, -, hsize, -, hencoded, -, -, -,
    rfl⟩ := makeResponse_inv h
  obtain ⟨fd, size, encoding, -, hc⟩ := encodeBody_inv hsize rfl hencoded
  unfold requestTexts
  simp only [hc]

/-- After `sendResponseHeaders` the loop is back in its state, with the header nodes it had, exactly
when `send` reported `EAGAIN` before the end of the header. -/
theorem sendResponseHeadersTurn_state {r : SendResult} {turn : SendTurn}
    (h : sendResponseHeadersTurn c r = some turn) (hrepeats : turn.repeats = false)
    (hstate : c.state = .sendHeaders) :
    turn.connection.state ≠ .recv ∧ (turn.connection.state = .sendHeaders ↔
      r = .eagain ∧ c.responseBufferHeadersOffset ≠ c.responseBufferHeadersLength) := by
  obtain ⟨headers, -, hturned⟩ := sendResponseHeadersTurn_cases h
  cases hturned with
  | eintr | sentPart => cases hrepeats
  | allSent hall => simp [hall]
  | blocked hleft => simp [hstate, hleft]
  | error | disconnected | sentAll => simp

theorem sendResponseHeadersTurn_eagain {turn : SendTurn}
    (h : sendResponseHeadersTurn c .eagain = some turn) : turn.repeats = false := by
  obtain ⟨headers, -, hturned⟩ := sendResponseHeadersTurn_cases h
  cases hturned <;> rfl

end Writes

/-! ### The loop after `recvRequest` -/

/-- Where the loop may stand after `recvRequest`, with a connection in the given state. -/
def AnswersAt (pc : Pc) (state : StateConnection) : Prop :=
  match pc with
  | .switch => state ≠ .recv
  | .recv => False
  | .sendHeaders => state = .sendHeaders
  | .sendBody => state = .sendBody
  | .sendAll _ _ => True
  | .ended => True

/-- The loop has left `recvRequest`, and stands where the state of the connection says. -/
def Answering (s : Dispatching) : Prop := AnswersAt s.2.pc s.connection.state

/-- What a step of the loop after `recvRequest` does. -/
structure Answered (s : Dispatching) (sys : Sys) (t : Dispatching) : Prop where
  answering : Answering t
  calls : CallsProcessRequest t ↔ BlocksHeader s sys
  kept : ¬ CallsProcessRequest s → t.2.pc ≠ .ended →
    requestTexts t.connection = requestTexts s.connection

section Steps

variable {options : Options} {s t : Dispatching} {sys : Sys} {q : QueueConnectionsType}
  {e : EventLoop} {c : QueueConnectionElementType} {pc : Pc} {effects : List Effect}

theorem answering_continue : Answering (e.continue q c pc effects) ↔ AnswersAt pc c.state := by
  unfold Answering
  rw [pc_continue, connection_continue]

theorem callsProcessRequest_continue :
    CallsProcessRequest (e.continue q c pc effects) ↔
      pc = .switch ∧ c.state = .sendHeaders ∧ c.requestHeaders = [] := by
  unfold CallsProcessRequest
  rw [pc_continue, connection_continue]

theorem Answered.of_no_call (hpc : s.2.pc ≠ .sendHeaders) (hcalls : ¬ CallsProcessRequest t)
    (hanswering : Answering t)
    (hkept : ¬ CallsProcessRequest s → t.2.pc ≠ .ended →
      requestTexts t.connection = requestTexts s.connection) : Answered s sys t :=
  ⟨hanswering, iff_of_false hcalls fun hblocks => hpc hblocks.1, hkept⟩

theorem not_callsProcessRequest_of_pc (hpc : t.2.pc ≠ .switch) : ¬ CallsProcessRequest t :=
  fun hcalls => hpc hcalls.1

theorem respond_answered (hpc : s.2.pc = .switch) (hstate : c.state = .sendHeaders)
    (hkept : ¬ CallsProcessRequest s → requestTexts c = requestTexts s.connection)
    (h : s.2.respond options s.1 sys c = some t) : Answered s sys t := by
  have hne : s.2.pc ≠ .sendHeaders := by simp [hpc]
  unfold EventLoop.respond at h
  split at h
  · obtain ⟨built, hmake, rfl⟩ := Option.map_eq_some_iff.mp h
    refine .of_no_call hne (not_callsProcessRequest_of_pc nofun)
      (answering_continue.mpr ((makeResponse_keeps hmake).2.trans hstate)) fun hcalls _ => ?_
    rw [connection_continue, makeResponse_requestTexts hmake]
    exact hkept hcalls
  · obtain rfl := Option.some.inj h
    refine .of_no_call hne (not_callsProcessRequest_of_pc nofun) (answering_continue.mpr hstate)
      fun hcalls _ => ?_
    rw [connection_continue]
    exact hkept hcalls

theorem sendHeadersCase_answered (hpc : s.2.pc = .switch)
    (hstate : s.connection.state = .sendHeaders)
    (h : s.2.sendHeadersCase options s.1 sys s.connection = some t) : Answered s sys t := by
  by_cases hnil : s.connection.requestHeaders = []
  · have hcalls : CallsProcessRequest s := ⟨hpc, hstate, hnil⟩
    obtain ⟨valid, c', hparse⟩ := sendHeadersCase_parses hnil h
    by_cases hrefused : Refused valid c'
    · obtain ⟨buffer, -, hcase⟩ :=
        sendHeadersCase_refused (q := s.1) (e := s.2) hnil hparse hrefused
      obtain rfl := Option.some.inj (hcase.symm.trans h)
      exact .of_no_call (by simp [hpc]) (not_callsProcessRequest_of_pc nofun)
        (answering_continue.mpr trivial) fun hnot => absurd hcalls hnot
    · rw [sendHeadersCase_goesOn hnil hparse hrefused] at h
      exact respond_answered hpc ((processRequest_keeps hparse).2.trans hstate)
        (fun hnot => absurd hcalls hnot) h
  · rw [sendHeadersCase_processed hnil] at h
    exact respond_answered hpc hstate (fun _ => rfl) h

theorem ended_answered (hpc : s.2.pc ≠ .sendHeaders) (ht : t.2.pc = .ended) : Answered s sys t := by
  refine .of_no_call hpc (not_callsProcessRequest_of_pc (by simp [ht])) ?_
    fun _ hnot => absurd ht hnot
  unfold Answering
  rw [ht]
  exact trivial

theorem logAndClose_answered (hpc : s.2.pc ≠ .sendHeaders) :
    Answered s sys (s.2.logAndClose s.1 s.connection) := by
  unfold EventLoop.logAndClose
  refine .of_no_call hpc ?_ (answering_continue.mpr nofun) fun _ _ => ?_
  · rw [callsProcessRequest_continue]
    simp
  · rw [connection_continue]
    rfl

theorem doneCase_answered (hpc : s.2.pc = .switch)
    (h : s.2.doneCase s.1 sys s.connection = some t) : Answered s sys t := by
  have hne : s.2.pc ≠ .sendHeaders := by simp [hpc]
  obtain ⟨q', e'⟩ := t
  rcases EventLoop.doneCase_cases h with ⟨-, -, -, rfl⟩ | ⟨-, -, -, rfl⟩ | ⟨-, heq⟩
  · exact ended_answered hne rfl
  · exact ended_answered hne rfl
  · rw [heq]
    exact logAndClose_answered hne

theorem sendHeadersPc_answered (hpc : s.2.pc = .sendHeaders)
    (hstate : s.connection.state = .sendHeaders) {turn : SendTurn}
    (hturn : sendResponseHeadersTurn s.connection sys.send = some turn) :
    Answered s sys (s.2.continue s.1 turn.connection (if turn.repeats then .sendHeaders else .switch)
      effects) := by
  obtain ⟨offset, state, hkeeps, hwritten⟩ := sendResponseHeadersTurn_inv hturn
  have htexts : requestTexts turn.connection = requestTexts s.connection := by
    rw [hwritten]
    rfl
  have hheaders : turn.connection.requestHeaders = s.connection.requestHeaders := by
    rw [hwritten]
  have hstate' : turn.connection.state = state := by
    rw [hwritten]
  refine ⟨?_, ?_, fun _ _ => by rw [connection_continue]; exact htexts⟩
  · rw [answering_continue]
    cases hrepeats : turn.repeats with
    | true => exact hstate'.trans ((hkeeps hrepeats).trans hstate)
    | false => exact (sendResponseHeadersTurn_state hturn hrepeats hstate).1
  · rw [callsProcessRequest_continue, hheaders]
    cases hrepeats : turn.repeats with
    | true =>
      refine iff_of_false (fun hcalls => nomatch hcalls.1) fun hblocks => ?_
      obtain ⟨-, hsend, -, -⟩ := hblocks
      rw [hsend] at hturn
      rw [sendResponseHeadersTurn_eagain hturn] at hrepeats
      cases hrepeats
    | false =>
      rw [(sendResponseHeadersTurn_state hturn hrepeats hstate).2]
      unfold BlocksHeader
      simp only [hpc, Bool.false_eq_true, if_false, true_and]
      constructor
      · rintro ⟨⟨hsend, hoffset⟩, hnil⟩
        exact ⟨hsend, hnil, hoffset⟩
      · rintro ⟨hsend, hnil, hoffset⟩
        exact ⟨⟨hsend, hoffset⟩, hnil⟩

theorem sendBodyPc_answered (hpc : s.2.pc = .sendBody) (hstate : s.connection.state = .sendBody) :
    Answered s sys (s.2.continue s.1
      (sendResponseFileTurn s.connection sys.bodyFile sys.send).connection
      (if (sendResponseFileTurn s.connection sys.bodyFile sys.send).repeats then .sendBody
        else .switch) effects) := by
  obtain ⟨offset, fd, state, hcases, hwritten⟩ :=
    sendResponseFileTurn_inv s.connection sys.bodyFile sys.send
  have hkeeps := (sendResponseFileTurn_keeps s.connection sys.bodyFile sys.send).2
  rw [hwritten] at hkeeps ⊢
  rw [hstate] at hcases
  refine .of_no_call (by simp [hpc]) ?_ ?_ fun _ _ => by rw [connection_continue]; rfl
  · rw [callsProcessRequest_continue]
    rintro ⟨-, hsend, -⟩
    have hsend : state = .sendHeaders := hsend
    rw [hsend] at hcases
    simp at hcases
  · rw [answering_continue]
    split
    · rename_i hrepeats
      exact (hkeeps hrepeats).trans hstate
    · rcases hcases with hcases | hcases | hcases <;> exact hcases ▸ nofun

/-- **What every step does** after `recvRequest`. -/
theorem answered_step (h : Answering s) (hnext : loopNext options s sys = some t) :
    Answered s sys t := by
  unfold Answering at h
  cases hpc : s.2.pc with
  | «switch» =>
    have hne : s.2.pc ≠ .sendHeaders := by simp [hpc]
    rw [hpc] at h
    cases hstate : s.connection.state with
    | recv => exact absurd hstate h
    | sendHeaders =>
      rw [loopNext_sendHeaders_switch hpc hstate] at hnext
      exact sendHeadersCase_answered hpc hstate hnext
    | sendBody =>
      by_cases hfd : s.connection.bodyFd = -1
      · rw [loopNext_noBody hpc hstate hfd] at hnext
        obtain rfl := Option.some.inj hnext
        refine .of_no_call hne ?_ (answering_continue.mpr nofun) fun _ _ => ?_
        · rw [callsProcessRequest_continue]
          exact fun hcalls => nomatch hcalls.2.1
        · rw [connection_continue]
          rfl
      · rw [loopNext_sendBody_switch hpc hstate hfd] at hnext
        obtain rfl := Option.some.inj hnext
        refine .of_no_call hne (not_callsProcessRequest_of_pc nofun)
          (answering_continue.mpr hstate) fun _ _ => ?_
        rw [connection_continue]
    | done =>
      rw [loopNext_done hpc hstate] at hnext
      exact doneCase_answered hpc hnext
    | doneForClose =>
      rw [loopNext_doneForClose hpc hstate] at hnext
      obtain rfl := Option.some.inj hnext
      exact ended_answered hne (closeCase_ended _ _)
  | recv =>
    rw [hpc] at h
    exact h.elim
  | sendHeaders =>
    rw [hpc] at h
    rw [loopNext_sendHeaders hpc] at hnext
    obtain ⟨turn, hturn, rfl⟩ := Option.map_eq_some_iff.mp hnext
    exact sendHeadersPc_answered hpc h hturn
  | sendBody =>
    rw [hpc] at h
    rw [loopNext_sendBody hpc] at hnext
    obtain rfl := Option.some.inj hnext
    exact sendBodyPc_answered hpc h
  | sendAll buffer leftToWrite =>
    have hne : s.2.pc ≠ .sendHeaders := by simp [hpc]
    rcases loopNext_sendAll hpc hnext with rfl | ⟨leftToWrite', effects, rfl⟩
    · exact logAndClose_answered hne
    · refine .of_no_call hne (not_callsProcessRequest_of_pc nofun)
        (answering_continue.mpr trivial) fun _ _ => ?_
      rw [connection_continue]
  | ended =>
    rw [loopNext_ended hpc] at hnext
    cases hnext

end Steps

/-! ### The runs that parse once -/

section Runs

variable {options : Options} {s₀ s t : Dispatching} {sys : Sys}
  {h : List (Transition Dispatching Sys)}

/-- `recvRequest` hands a request without header nodes, as every new record is, to
`processRequest`. -/
theorem callsProcessRequest_of_recv (hpc : s.2.pc = .recv) (hrecv : s.connection.state = .recv)
    (hnil : s.connection.requestHeaders = []) (hnext : loopNext options s sys = some t)
    (hstate : t.connection.state = .sendHeaders) : CallsProcessRequest t := by
  rw [loopNext_recv hpc] at hnext
  obtain ⟨⟨c, repeats⟩, hturn, rfl⟩ := Option.map_eq_some_iff.mp hnext
  obtain ⟨buffer, offset, state, hkeeps, rfl⟩ := recvRequestTurn_inv hturn
  rw [connection_continue] at hstate
  rw [callsProcessRequest_continue]
  cases repeats with
  | true =>
    have hsame : state = s.connection.state := hkeeps rfl
    rw [hsame.trans hrecv] at hstate
    cases hstate
  | false => exact ⟨rfl, hstate, hnil⟩

theorem CallsProcessRequest.answering (h : CallsProcessRequest s) : Answering s := by
  unfold Answering
  rw [h.1, h.2.1]
  exact nofun

/-- The calls of `processRequest` in a run: the first one, and one for each header that `send` did
not take whole. -/
theorem visits_callsProcessRequest (hreceived : CallsProcessRequest s₀)
    (hrun : Run (fun s sys t => loopNext options s sys = some t) s₀ h s) :
    visits CallsProcessRequest h s = 1 + occurrences BlocksHeader h := by
  rw [hrun.visits_eq hreceived.answering (fun _ _ _ hnext hin => (answered_step hin hnext).answering)
    fun _ _ _ hnext hin => (answered_step hin hnext).calls, if_pos hreceived]

/-- **Parsed once.** From the end of `recvRequest` on, a run of the loop parses the request once
exactly if `send` never reports `EAGAIN` with a part of the header left, for a request without
header nodes. -/
theorem parsedOnce_iff (hreceived : CallsProcessRequest s₀)
    (hrun : Run (fun s sys t => loopNext options s sys = some t) s₀ h s) :
    ParsedOnce h s ↔ Guarded (fun s sys => ¬ BlocksHeader s sys) h := by
  have hvisits := visits_callsProcessRequest hreceived hrun
  rw [← occurrences_eq_zero]
  constructor
  · intro honce
    have := honce.once
    omega
  · intro hzero
    refine ⟨by omega, fun e he hcalls hended => ?_⟩
    obtain ⟨h', -, hrun', hnext⟩ := hrun.of_mem he
    have hin := hrun'.invariant hreceived.answering
      fun _ _ _ hnext hin => (answered_step hin hnext).answering
    exact (answered_step hin hnext).kept hcalls hended

end Runs

/-- A new client sends a request without header lines. -/
def bareRequestScript : List Sys :=
  [localSys 100, { localSys 100 with recv := .data (bytes "GET / HTTP/1.1\r\n\r\n") }]

/-- The loop when `recvRequest` has received it. -/
def bareRequest : Dispatching :=
  (exec (loopNext wwwOptions)
    (createQueueConnections.setConnection 0 (freshConnection 5 100 .zeroed), .start 5 0)
    bareRequestScript).get (by decide +kernel)

/-- The request is processed, and the socket takes nothing of the header. -/
def blockedHeader : List Sys := [localSys 100, localSys 100]

/-- The request is processed again. -/
theorem not_parsedOnce_bareRequest :
    ¬ ∀ (options : Options) (s₀ s : Dispatching) (h : List (Transition Dispatching Sys)),
      CallsProcessRequest s₀ → Run (fun s sys t => loopNext options s sys = some t) s₀ h s →
        ParsedOnce h s := by
  intro hall
  have honce := (hall wwwOptions bareRequest _ _ (by decide +kernel)
    (run_of_isSome (show (exec (loopNext wwwOptions) bareRequest blockedHeader).isSome by
      decide +kernel))).once
  revert honce
  decide +kernel

/-- It is processed once where the socket takes the header in two pieces. -/
theorem parsedOnce_bareRequest :
    ParsedOnce
      (history (loopNext wwwOptions) bareRequest
        [localSys 100, { localSys 100 with send := .sent 10 },
          { localSys 100 with send := .sent 1024 }, localSys 100])
      ((exec (loopNext wwwOptions) bareRequest
        [localSys 100, { localSys 100 with send := .sent 10 },
          { localSys 100 with send := .sent 1024 }, localSys 100]).get (by decide +kernel)) :=
  (parsedOnce_iff (by decide +kernel) (run_of_isSome (by decide +kernel))).mpr (by decide +kernel)

end UbServer

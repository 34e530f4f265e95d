import UbServer.CleanSlate
import UbServer.ReceiveBuffer
import UbServer.SendAll
import UbServer.ResponseFormat

/-!
# What the clients of a thread read

A thread and its clients over whole runs: the requests on a connection come in one after the other,
in any number of events and in any order between the clients, and a client cuts what it receives into
responses by `content-length`.

* `Exchange`: what has gone over a connection, kept beside the thread.
* `Stage`: where the loop of a client stands with the request it has received.
* `ClientReads`: the responses cut out of the stream are those built, in their order, each for the
  bytes of its own request as on a connection just opened.
* `clients_read`: that holds of every client in every state of a run.
-/

namespace UbServer

open CString Runs QueueConnectionsType Framing

/-! ### Connections -/

/-- A response of `makeResponse`, with the bytes received for its request and what the system answered
while it was built, the files among it. -/
structure Answer where
  request : Bytes
  sys : Sys
  head : Bytes
  body : Bytes

/-- What has gone over a connection since it was opened: the responses built for it, the bytes that
the kernel has accepted, and whether a fixed response has been begun. -/
structure Exchange where
  answers : List Answer
  wire : Bytes
  refused : Bool

def Exchange.opened : Exchange := ⟨[], [], false⟩

/-- The bytes received in a loop. -/
def receivedIn (effects : List Effect) : Bytes :=
  effects.flatMap fun
    | .received bytes => bytes
    | _ => []

/-- The loop is in `sendAll`. -/
def Pc.refuses : Pc → Bool
  | .sendAll .. => true
  | _ => false

section Steps

variable (options : Options) (q : QueueConnectionsType) (e : EventLoop) (sys : Sys) (e' : EventLoop)

/-- The response that a step of the loop builds, if it calls `makeResponse`. -/
def EventLoop.answered : List Answer :=
  let connection := q.connections e.slot
  if connection.responseBufferHeaders = none ∧ e'.pc = .sendHeaders then
    let parsed := if connection.requestHeaders = [] then
        (processRequest options sys.request connection).map Prod.snd
      else some connection
    ((parsed.bind (makeResponse options sys.response sys.disk)).map fun built =>
      ⟨receivedIn e.effects, sys, built.connection.responseBufferHeaders.getD [], built.body⟩).toList
  else []

/-- The connection after a step of the loop. -/
def Exchange.after (x : Exchange) : Exchange where
  answers := x.answers ++ e.answered options q sys e'
  wire := x.wire ++ UbServer.wire (e'.effects.drop e.effects.length)
  refused := x.refused || e'.pc.refuses

end Steps

/-- A thread, and what has gone over the connection of each descriptor. -/
structure Served where
  thread : Thread
  exchanges : ℕ → Exchange

def Served.init (clock : ℤ) : Served := ⟨.init clock, fun _ => .opened⟩

/-- What has gone over the connections when the step leads to `t`. A client without a record has just
been accepted. -/
def Served.exchangesAfter (options : Options) (s : Served) (t : Thread) (a : WorkerAction) :
    ℕ → Exchange :=
  match s.thread.worker.phase.loop, t.worker.phase.loop, a with
  | some e, some e', .call sys =>
    Function.update s.exchanges e.clientFd
      ((s.exchanges e.clientFd).after options s.thread.worker.queue e sys e')
  | _, _, _ =>
    match s.thread.worker.takes a with
    | some fd =>
      if existsConnection s.thread.worker.queue fd then s.exchanges
      else Function.update s.exchanges fd .opened
    | none => s.exchanges

/-- One step. -/
def Served.next (options : Options) (s : Served) (a : WorkerAction) : Option Served :=
  (s.thread.next options a).map fun t => ⟨t, s.exchangesAfter options t a⟩

/-- One step, as a step relation. -/
abbrev ServedStep (options : Options) (s : Served) (a : WorkerAction) (s' : Served) : Prop :=
  s.next options a = some s'

/-- What the system answers to a step of the loop of a client. -/
def WorkerAction.sys : WorkerAction → Option Sys
  | .call sys => some sys
  | _ => none

/-- The file behind `bodyFd` is what it was when the response was built. -/
def BodyUnchanged (s : Served) (a : WorkerAction) : Prop :=
  ∀ e ∈ s.thread.worker.phase.loop, ∀ sys ∈ a.sys, e.pc = .sendBody →
    (s.exchanges e.clientFd).answers.getLast?.map Answer.body = some sys.bodyFile

instance (s : Served) (a : WorkerAction) : Decidable (BodyUnchanged s a) :=
  inferInstanceAs (Decidable (∀ e ∈ _, ∀ sys ∈ _, _))

/-- The texts that the step gets for a response have no line breaks. -/
def WorkerAction.OneLine : WorkerAction → Prop
  | .call sys => sys.response.OneLine
  | _ => True

/-! ### What a client reads -/

/-- The response is the one that any connection just opened gives to these bytes, with the same
answers of the system and the same files. -/
def Answer.FromFresh (options : Options) (a : Answer) : Prop :=
  ∀ (fd : ℕ) (now : ℤ) (mem : RequestBlock), ∃ (c : QueueConnectionElementType) (built : Built),
    processRequest options a.sys.request (completed fd now mem a.request) = some (true, c) ∧
    supportedProtocol c.protocolVersion ∧ ¬ isHello c.path ∧
    makeResponse options a.sys.response a.sys.disk c = some built ∧
    built.connection.responseBufferHeaders = some a.head ∧ built.body = a.body

/-- A response that says that the connection is kept. -/
def Keeps (reply : Reply) : Prop := announced reply.head = some (bytes "keep-alive")

/-- The responses built for a connection, as messages. -/
structure Exchange.Answers (options : Options) (x : Exchange) (replies : List Reply) : Prop where
  parts : replies.map (fun reply => (reply.head, reply.body)) =
    x.answers.map fun a => (a.head, a.body)
  fresh : ∀ a ∈ x.answers, a.FromFresh options

/-- The connection of a client that is between two requests: every response is sent as a whole, and
says that the connection is kept. -/
structure Exchange.Settled (options : Options) (x : Exchange) (replies : List Reply) : Prop where
  answers : x.Answers options replies
  refused : x.refused = false
  wire : x.wire = replies.flatMap replyCode.render
  keeps : ∀ reply ∈ replies, Keeps reply

/-- The connection of any client: every response but the last one is sent as a whole. -/
structure Exchange.Framed (options : Options) (x : Exchange) (replies : List Reply) : Prop where
  answers : x.Answers options replies
  complete : replies.dropLast.flatMap replyCode.render <+: x.wire
  nothingElse : x.refused = false → x.wire <+: replies.flatMap replyCode.render
  keeps : ∀ reply ∈ replies.dropLast, Keeps reply

section Exchanges

variable {options : Options} {x : Exchange} {replies : List Reply}

theorem Exchange.settled_opened : Exchange.opened.Settled options [] where
  answers := ⟨rfl, by simp [Exchange.opened]⟩
  refused := rfl
  wire := rfl
  keeps := by simp

theorem Exchange.Settled.framed (h : x.Settled options replies) : x.Framed options replies where
  answers := h.answers
  complete := by
    rw [h.wire]
    obtain ⟨rest, hrest⟩ := List.dropLast_prefix replies
    exact ⟨rest.flatMap replyCode.render, by rw [← List.flatMap_append, hrest]⟩
  nothingElse := fun _ => h.wire ▸ List.prefix_rfl
  keeps := fun reply hreply => h.keeps reply (List.dropLast_subset _ hreply)

end Exchanges

/-! ### The stages of a loop -/

/-- The record while a request is received: the bytes are stored, the request is complete, or the
client is gone. -/
inductive Receiving (got : Bytes) (pc : Pc) (c : QueueConnectionElementType) : Prop
  | storing (fd : ℕ) (now : ℤ) (mem : RequestBlock) : c = storing fd now mem got →
      pc = .switch ∨ pc = .recv → got.length ≤ bufferRequestSize → Receiving got pc c
  | completed (fd : ℕ) (now : ℤ) (mem : RequestBlock) : c = completed fd now mem got →
      pc = .switch → Receiving got pc c
  | abandoned (fd : ℕ) (now : ℤ) (mem : RequestBlock) : c = abandoned fd now mem got →
      pc = .switch → Receiving got pc c

/-- The last response is on its way, and `sent` of it has been accepted. -/
structure Replying (options : Options) (x : Exchange) (pc : Pc) (c : QueueConnectionElementType)
    (replies : List Reply) (reply : Reply) (sent : Bytes) : Prop where
  answers : x.Answers options (replies ++ [reply])
  refused : x.refused = false
  wire : x.wire = replies.flatMap replyCode.render ++ sent
  keeps : ∀ reply ∈ replies, Keeps reply
  delivering : ∃ block, Delivering block reply.head reply.body sent pc c.sending
  announces : announced reply.head =
    some (if c.keepAlive then bytes "keep-alive" else bytes "close")
  short : reply.head.length < 1024 ∧ reply.body.length < 2 ^ 63

/-- Where the loop of a client stands that goes on. -/
inductive Stage (options : Options) (x : Exchange) (e : EventLoop)
    (c : QueueConnectionElementType) : Prop
  | receiving (replies : List Reply) : x.Settled options replies →
      Receiving (receivedIn e.effects) e.pc c → Stage options x e c
  | sending (replies : List Reply) (reply : Reply) (sent : Bytes) :
      Replying options x e.pc c replies reply sent → Stage options x e c
  | refusing (replies : List Reply) : x.Framed options replies → x.refused = true →
      e.pc.refuses ∨ e.pc = .switch ∧ c.state = .doneForClose → Stage options x e c

/-- What a step of a loop leads to: the loop goes on, or it is over and the client re-armed, or it is
over and the client is not. -/
inductive Progress (options : Options) (x : Exchange) (e : EventLoop) (s' : Dispatching) : Prop
  | goesOn : Stage options x s'.2 s'.connection → Progress options x e s'
  | renewed (replies : List Reply) : s'.2.pc = .ended → x.Settled options replies →
      Progress options x e s'
  | closed (replies : List Reply) : s'.2.pc = .ended → x.Framed options replies →
      .rearmed ∉ s'.2.effects.drop e.effects.length → Progress options x e s'

section Stages

variable {options : Options} {x : Exchange} {q : QueueConnectionsType} {e : EventLoop} {sys : Sys}
  {c c' : QueueConnectionElementType} {pc : Pc} {effects : List Effect} {replies : List Reply}
  {reply : Reply} {sent : Bytes} {s' : Dispatching}

theorem after_goto
    (hnone : (q.connections e.slot).responseBufferHeaders ≠ none ∨ pc ≠ .sendHeaders) :
    x.after options q e sys (e.goto pc effects) =
      ⟨x.answers, x.wire ++ wire effects, x.refused || pc.refuses⟩ := by
  have hanswered : e.answered options q sys (e.goto pc effects) = [] := by
    unfold EventLoop.answered
    exact if_neg fun h => hnone.elim (fun hne => hne h.1) fun hne => hne h.2
  unfold Exchange.after
  rw [hanswered, List.append_nil, EventLoop.goto_newEffects]
  rfl

theorem after_silent (hpc : pc ≠ .sendHeaders) (hrefuses : pc.refuses = false)
    (hwire : wire effects = []) : x.after options q e sys (e.goto pc effects) = x := by
  rw [after_goto (Or.inr hpc), hwire, hrefuses, List.append_nil, Bool.or_false]

theorem Exchange.Framed.refused (h : x.Framed options replies) (accepted : Bytes) :
    Exchange.Framed options ⟨x.answers, x.wire ++ accepted, true⟩ replies where
  answers := ⟨h.answers.parts, h.answers.fresh⟩
  complete := h.complete.trans (List.prefix_append _ _)
  nothingElse := fun hrefused => absurd hrefused (by simp)
  keeps := h.keeps

theorem closeCase_progress (h : x.Framed options replies) (hs : e.closeCase q = s') :
    Progress options (x.after options q e sys s'.2) e s' := by
  obtain ⟨q', e'⟩ := s'
  rcases EventLoop.closeCase_cases hs with ⟨-, -, rfl⟩ | ⟨-, -, rfl⟩
  · refine .closed replies rfl ?_ ?_
    · rw [after_silent (by simp) rfl rfl]
      exact h
    · rw [EventLoop.goto_newEffects]
      simp
  · refine .closed replies rfl ?_ ?_
    · rw [after_silent (by simp) rfl rfl]
      exact h
    · rw [EventLoop.goto_newEffects]
      simp

/-! ### Receiving -/

theorem receivedIn_append (effects effects' : List Effect) :
    receivedIn (effects ++ effects') = receivedIn effects ++ receivedIn effects' :=
  List.flatMap_append

theorem receivedIn_effectOf (received : Bytes) :
    receivedIn (effectOf .received received) = received := by
  unfold effectOf
  split
  · rename_i h
    exact h.symm
  · simp [receivedIn]

theorem wire_effectOf_received (received : Bytes) : wire (effectOf .received received) = [] := by
  unfold effectOf
  split <;> simp [wire]

theorem afterTest_cases {fd : ℕ} {now : ℤ} {mem : RequestBlock} {got : Bytes} {receiver : Receiver}
    (h : afterTest fd now mem got = some receiver) :
    receiver.connection = completed fd now mem got ∨ receiver.connection = storing fd now mem got := by
  unfold afterTest at h
  obtain ⟨complete, -, h⟩ := Option.bind_eq_some_iff.mp h
  cases complete with
  | false =>
    obtain rfl := Option.some.inj h
    exact Or.inr rfl
  | true =>
    simp only [if_true] at h
    split at h
    · obtain rfl := Option.some.inj h
      exact Or.inl rfl
    · cases h

theorem recvRequestTurn_receiving {fd : ℕ} {now : ℤ} {mem : RequestBlock} {got : Bytes}
    {r : RecvResult} {repeats : Bool} (hgot : got.length ≤ bufferRequestSize)
    (h : recvRequestTurn (storing fd now mem got) r = some (c', repeats)) :
    Receiving (got ++ receivedBytes (storing fd now mem got) r) (if repeats then .recv else .switch)
      c' := by
  have hnext : Receiver.next ⟨storing fd now mem got, got⟩ r =
      some ⟨c', got ++ receivedBytes (storing fd now mem got) r⟩ := by
    unfold Receiver.next
    rw [if_pos (storing_state ..), h]
    rfl
  have hstate := (recvRequestTurn_keeps h).2
  -- a turn after which the loop of `recvRequest` is over
  have hover : c'.state ≠ .recv → (if repeats then Pc.recv else .switch) = .switch := by
    intro hne
    cases repeats with
    | false => rfl
    | true => exact absurd (hstate rfl) hne
  have hopen : ∀ {got'}, c' = storing fd now mem got' → got'.length ≤ bufferRequestSize →
      Receiving got' (if repeats then .recv else .switch) c' := by
    intro got' hc hlen
    refine .storing fd now mem hc ?_ hlen
    cases repeats with
    | false => exact Or.inl rfl
    | true => exact Or.inr rfl
  have htested : ∀ {got'}, afterTest fd now mem got' = some ⟨c', got'⟩ →
      got'.length ≤ bufferRequestSize → Receiving got' (if repeats then .recv else .switch) c' := by
    intro got' htest hlen
    rcases afterTest_cases htest with hc | hc
    · obtain rfl : c' = completed fd now mem got' := hc
      exact .completed fd now mem rfl (hover (by simp))
    · exact hopen hc hlen
  rw [next_storing hgot, receivedBytes_storing] at hnext
  rw [receivedBytes_storing]
  cases r with
  | eintr =>
    obtain ⟨hc, -⟩ := Receiver.mk.inj (Option.some.inj hnext)
    rw [List.append_nil]
    exact hopen hc.symm hgot
  | eagain =>
    simp only [List.append_nil] at hnext ⊢
    exact htested hnext hgot
  | error =>
    obtain ⟨hc, -⟩ := Receiver.mk.inj (Option.some.inj hnext)
    rw [List.append_nil]
    exact .abandoned fd now mem hc.symm (hover (by rw [← hc]; simp))
  | data bytes =>
    simp only at hnext ⊢
    split at hnext
    · rename_i hnil
      obtain ⟨hc, -⟩ := Receiver.mk.inj (Option.some.inj hnext)
      rw [hnil, List.append_nil]
      exact .abandoned fd now mem hc.symm (hover (by rw [← hc]; simp))
    · refine htested hnext ?_
      rw [List.length_append, List.length_take]
      omega

/-! ### Building the response -/

/-- The record of another connection, with another block. -/
def QueueConnectionElementType.reopened (c : QueueConnectionElementType) (fd : ℕ) (now : ℤ)
    (block : Bytes) : QueueConnectionElementType :=
  { c with clientFd := fd, priorityTime := now, requestBuffer := some block }

/-- `processRequest` reads of the block its string, and neither the descriptor nor the time. -/
theorem processRequest_reopened {env : RequestEnv} {block block' : Bytes} (fd : ℕ) (now : ℤ)
    (hblock : c.requestBuffer = some block) (htext : cString block' = cString block) :
    processRequest options env (c.reopened fd now block') =
      (processRequest options env c).map fun r => (r.1, r.2.reopened fd now block') := by
  unfold processRequest
  simp only [QueueConnectionElementType.reopened, hblock, htext, Option.bind_eq_bind,
    Option.bind_some]
  cases env.peer with
  | none => rfl
  | some ip =>
    cases strstr crlf (cString block) with
    | none => rfl
    | some firstLineLength =>
      simp only []
      cases scanRequestLine env ((cString block).take firstLineLength) with
      | none => rfl
      | some words =>
        simp only [Option.bind_some, processHeaders]
        split
        · rfl
        · split <;> rfl

theorem encodeBody_reopened {env : ResponseEnv} {disk : Disk} {file : File} {encoded : Built} (fd : ℕ)
    (now : ℤ) (block : Bytes) (h : encodeBody options env disk file c = some encoded) :
    encodeBody options env disk file (c.reopened fd now block) =
      some { encoded with connection := encoded.connection.reopened fd now block } := by
  unfold encodeBody at h ⊢
  split at h
  · rename_i haccepts
    rw [if_pos (show acceptsGzip (c.reopened fd now block).requestHeaders from haccepts)]
    unfold makeContentEncoding at h ⊢
    obtain ⟨absolutePath, hpath, h⟩ := Option.bind_eq_some_iff.mp h
    obtain ⟨gzipPath, hgzipPath, h⟩ := Option.bind_eq_some_iff.mp h
    obtain ⟨copy, hcopy, h⟩ := Option.bind_eq_some_iff.mp h
    obtain ⟨length, hlength, h⟩ := Option.bind_eq_some_iff.mp h
    obtain rfl := Option.some.inj h
    exact Option.bind_eq_some_iff.mpr ⟨absolutePath, hpath, Option.bind_eq_some_iff.mpr
      ⟨gzipPath, hgzipPath, Option.bind_eq_some_iff.mpr ⟨copy, hcopy, Option.bind_eq_some_iff.mpr
        ⟨length, hlength, rfl⟩⟩⟩⟩
  · rename_i hrefuses
    obtain rfl := Option.some.inj h
    exact if_neg hrefuses

/-- `makeResponse` reads neither the block nor the descriptor nor the time. -/
theorem makeResponse_reopened {env : ResponseEnv} {disk : Disk} {built : Built} (fd : ℕ) (now : ℤ)
    (block : Bytes) (h : makeResponse options env disk c = some built) :
    makeResponse options env disk (c.reopened fd now block) =
      some { built with connection := built.connection.reopened fd now block } := by
  obtain ⟨absolutePath, opened, file, code, size, mimeType, lastModifiedDate, currentDate, printed,
    encoded, hpath, hresource, hsize, hmime, hencoded, hmodified, hcurrent, hprinted, rfl⟩ :=
    makeResponse_inv h
  have hhead : responseHead (encoded.connection.reopened fd now block) mimeType lastModifiedDate
      currentDate = some ({ encoded.connection with
        keepAlive := asksKeepAlive encoded.connection.requestHeaders
        responseBufferHeadersOffset := 0
        responseBufferHeadersLength := printed.offset
        responseBufferHeaders := some printed.text }.reopened fd now block) :=
    Option.bind_eq_some_iff.mpr ⟨printed, hprinted, rfl⟩
  unfold makeResponse
  exact Option.bind_eq_some_iff.mpr ⟨absolutePath, hpath, Option.bind_eq_some_iff.mpr
    ⟨(opened, file, code), hresource, Option.bind_eq_some_iff.mpr ⟨size, hsize,
      Option.bind_eq_some_iff.mpr ⟨mimeType, hmime, Option.bind_eq_some_iff.mpr
        ⟨_, encodeBody_reopened fd now block hencoded, Option.bind_eq_some_iff.mpr
          ⟨lastModifiedDate, hmodified, Option.bind_eq_some_iff.mpr ⟨currentDate, hcurrent,
            Option.bind_eq_some_iff.mpr ⟨_, hhead, rfl⟩⟩⟩⟩⟩⟩⟩⟩

/-- The string of a completed request does not depend on what its block held. -/
theorem cString_completed (mem : RequestBlock) (got : Bytes) :
    cString (writeAt (blockAfter mem got) got.length [0]) = cString got := by
  unfold writeAt blockAfter
  rw [List.take_left, List.append_assoc, List.singleton_append, cString_nul_append]

/-- A response to bytes received on one connection is the one to the same bytes on any other. -/
theorem fromFresh_of_completed {fd : ℕ} {now : ℤ} {mem : RequestBlock} {a : Answer} {built : Built}
    (hparse : processRequest options a.sys.request (completed fd now mem a.request) = some (true, c))
    (hprotocol : supportedProtocol c.protocolVersion) (hhello : ¬ isHello c.path)
    (hbuilt : makeResponse options a.sys.response a.sys.disk c = some built)
    (hhead : built.connection.responseBufferHeaders = some a.head) (hbody : built.body = a.body) :
    a.FromFresh options := by
  intro fd' now' mem'
  have hreopened : completed fd' now' mem' a.request = (completed fd now mem a.request).reopened fd'
      now' (writeAt (blockAfter mem' a.request) a.request.length [0]) := rfl
  have hparse' : processRequest options a.sys.request (completed fd' now' mem' a.request) =
      (processRequest options a.sys.request (completed fd now mem a.request)).map fun r =>
        (r.1, r.2.reopened fd' now' (writeAt (blockAfter mem' a.request) a.request.length [0])) :=
    hreopened ▸ processRequest_reopened fd' now' rfl
      ((cString_completed mem' a.request).trans (cString_completed mem a.request).symm)
  rw [hparse, Option.map_some] at hparse'
  exact ⟨_, _, hparse', hprotocol, hhello, makeResponse_reopened fd' now' _ hbuilt, hhead, hbody⟩

theorem answer_progress {buffer : Bytes} (h : x.Framed options replies)
    (hs : e.answer q c buffer = s') :
    Progress options (x.after options q e sys s'.2) e s' := by
  subst hs
  refine .goesOn (.refusing replies ?_ ?_ (Or.inl rfl))
  · show (x.after options q e sys (e.goto (.sendAll buffer buffer.length) [])).Framed options replies
    rw [after_goto (Or.inr (by simp)), show Pc.refuses (.sendAll buffer buffer.length) = true from rfl,
      Bool.or_true]
    exact h.refused []
  · show (x.after options q e sys (e.goto (.sendAll buffer buffer.length) [])).refused = true
    rw [after_goto (Or.inr (by simp))]
    exact Bool.or_true _

theorem respond_progress {fd : ℕ} {now : ℤ} {mem : RequestBlock} (h : x.Settled options replies)
    (hc : q.connections e.slot = completed fd now mem (receivedIn e.effects))
    (hparse : processRequest options sys.request (q.connections e.slot) = some (true, c))
    (hprotocol : supportedProtocol c.protocolVersion) (hhello : ¬ isHello c.path)
    (henv : sys.response.OneLine) (hs : e.respond options q sys c = some s') :
    Progress options (x.after options q e sys s'.2) e s' := by
  have hsending : c.sending = (completed fd now mem (receivedIn e.effects)).sending := by
    rw [← hc]
    exact processRequest_sending hparse
  have hnone : c.responseBufferHeaders = none := congrArg Sending.responseBufferHeaders hsending
  unfold EventLoop.respond at hs
  rw [if_pos hnone] at hs
  obtain ⟨built, hbuilt, rfl⟩ := Option.map_eq_some_iff.mp hs
  obtain ⟨reply, hhead, hbody, hannounced⟩ := makeResponse_reply hprotocol henv hbuilt
  obtain ⟨head, bodyFd, hshort, hlt, hbuiltSending⟩ :=
    makeResponse_sending (supportedProtocol_length hprotocol) hbuilt
  obtain rfl : reply.head = head := Option.some.inj
    (hhead.symm.trans (congrArg Sending.responseBufferHeaders hbuiltSending))
  have hanswered : e.answered options q sys (e.goto .sendHeaders []) =
      [⟨receivedIn e.effects, sys, reply.head, reply.body⟩] := by
    unfold EventLoop.answered
    rw [if_pos ⟨by rw [hc]; rfl, rfl⟩, if_pos (by rw [hc]; rfl), hparse]
    simp only [Option.map_some, Option.bind_some, hbuilt, hhead, Option.getD_some, hbody,
      Option.toList_some]
  have hafter : x.after options q e sys (e.goto .sendHeaders []) =
      ⟨x.answers ++ [⟨receivedIn e.effects, sys, reply.head, reply.body⟩], x.wire, x.refused⟩ := by
    unfold Exchange.after
    rw [hanswered, EventLoop.goto_newEffects, show wire [] = [] from rfl, List.append_nil,
      show (e.goto .sendHeaders []).pc.refuses = false from rfl, Bool.or_false]
  refine .goesOn (.sending replies reply [] ?_)
  show Replying options (x.after options q e sys (e.goto .sendHeaders [])) .sendHeaders
    (Dispatching.connection (e.continue q built.connection .sendHeaders [])) replies reply []
  rw [hafter, connection_continue]
  let block := writeAt (blockAfter mem (receivedIn e.effects)) (receivedIn e.effects).length [0]
  refine ⟨⟨?_, ?_⟩, h.refused, ?_, h.keeps, ⟨block, ?_⟩, hannounced, hshort, hbody ▸ hlt⟩
  · rw [List.map_append, List.map_append, h.answers.parts]
    rfl
  · intro a ha
    rcases List.mem_append.mp ha with ha | ha
    · exact h.answers.fresh a ha
    · obtain rfl := List.mem_singleton.mp ha
      rw [hc] at hparse
      exact fromFresh_of_completed hparse hprotocol hhello hbuilt hhead hbody.symm
  · rw [h.wire, List.append_nil]
  · rw [hbuiltSending, hsending, hbody]
    refine ⟨rfl, rfl, rfl, Nat.zero_le _, rfl, Nat.zero_le _, ?_⟩
    simp only [show (completed fd now mem (receivedIn e.effects)).sending.state = .sendHeaders from rfl]
    refine ⟨Or.inr trivial, trivial, ?_, List.take_zero.symm⟩
    simp

theorem receiving_progress (h : x.Settled options replies)
    (hreceiving : Receiving (receivedIn e.effects) e.pc (q.connections e.slot))
    (henv : sys.response.OneLine) (hst : e.step options q sys = some s') :
    Progress options (x.after options q e sys s'.2) e s' := by
  cases hreceiving with
  | storing fd now mem hc hpc hgot =>
    rcases hpc with hpc | hpc
    · rw [EventLoop.step_switch_recv hpc (by rw [hc]; rfl)] at hst
      obtain rfl := Option.some.inj hst
      refine .goesOn (.receiving replies ?_ ?_)
      · show (x.after options q e sys (e.goto .recv [])).Settled options replies
        rw [after_silent (by simp) rfl rfl]
        exact h
      · rw [connection_continue, pc_continue]
        show Receiving (receivedIn (e.effects ++ [])) .recv (q.connections e.slot)
        rw [List.append_nil]
        exact .storing fd now mem hc (Or.inr rfl) hgot
    · rw [EventLoop.step_recv hpc] at hst
      obtain ⟨⟨c', repeats⟩, hturn, rfl⟩ := Option.map_eq_some_iff.mp hst
      rw [hc] at hturn
      have hnext := recvRequestTurn_receiving hgot hturn
      have hnot : (if repeats then Pc.recv else .switch) ≠ .sendHeaders ∧
          Pc.refuses (if repeats then .recv else .switch) = false := by
        cases repeats <;> simp [Pc.refuses]
      refine .goesOn (.receiving replies ?_ ?_)
      · show (x.after options q e sys (e.goto (if repeats then .recv else .switch) _)).Settled options
          replies
        rw [after_silent hnot.1 hnot.2 (wire_effectOf_received _)]
        exact h
      · rw [connection_continue, pc_continue]
        show Receiving (receivedIn (e.effects ++ _)) _ c'
        rw [receivedIn_append, receivedIn_effectOf, hc]
        exact hnext
  | completed fd now mem hc hpc =>
    rw [EventLoop.step_switch_sendHeaders hpc (by rw [hc]; rfl)] at hst
    unfold EventLoop.sendHeadersCase at hst
    rw [if_pos (by rw [hc]; rfl)] at hst
    obtain ⟨⟨valid, c₁⟩, hparse, hst⟩ := Option.bind_eq_some_iff.mp hst
    simp only at hst
    split at hst
    · exact answer_progress h.framed (Option.some.inj hst)
    · rename_i hvalid
      obtain rfl : valid = true := not_not.mp hvalid
      split at hst
      · exact answer_progress h.framed (Option.some.inj hst)
      · rename_i hprotocol
        split at hst
        · exact answer_progress h.framed (Option.some.inj hst)
        · rename_i hhello
          exact respond_progress h hc hparse (not_not.mp hprotocol) hhello henv hst
  | abandoned fd now mem hc hpc =>
    rw [EventLoop.step_switch_doneForClose hpc (by rw [hc]; rfl)] at hst
    exact closeCase_progress h.framed (Option.some.inj hst)

/-! ### Sending -/

theorem Replying.framed (h : Replying options x pc c replies reply sent) :
    x.Framed options (replies ++ [reply]) where
  answers := h.answers
  complete := by
    rw [List.dropLast_concat, h.wire]
    exact List.prefix_append _ _
  nothingElse := by
    obtain ⟨block, hdelivering⟩ := h.delivering
    intro _
    rw [h.wire, List.flatMap_append, List.flatMap_singleton, List.prefix_append_right_inj]
    exact hdelivering.accepted
  keeps := by
    rw [List.dropLast_concat]
    exact h.keeps

theorem Replying.settled (h : Replying options x pc c replies reply sent) (hkeep : c.keepAlive)
    (hsent : sent = reply.head ++ reply.body) : x.Settled options (replies ++ [reply]) where
  answers := h.answers
  refused := h.refused
  wire := by
    rw [h.wire, hsent, List.flatMap_append, List.flatMap_singleton]
    rfl
  keeps := by
    intro r hr
    rcases List.mem_append.mp hr with hr | hr
    · exact h.keeps r hr
    · obtain rfl := List.mem_singleton.mp hr
      have hannounced := h.announces
      rw [if_pos hkeep] at hannounced
      exact hannounced

theorem replying_progress (h : Replying options x e.pc (q.connections e.slot) replies reply sent)
    (hkeep : c.keepAlive = (q.connections e.slot).keepAlive) (hrefuses : pc.refuses = false)
    (hdelivering : ∃ block, Delivering block reply.head reply.body (sent ++ wire effects) pc c.sending)
    (hs : e.continue q c pc effects = s') :
    Progress options (x.after options q e sys s'.2) e s' := by
  subst hs
  have hheaders : (q.connections e.slot).responseBufferHeaders ≠ none := by
    obtain ⟨block, hdelivering⟩ := h.delivering
    have hhead : (q.connections e.slot).responseBufferHeaders = some reply.head := hdelivering.headers
    rw [hhead]
    exact Option.some_ne_none _
  refine .goesOn (.sending replies reply (sent ++ wire effects) ?_)
  show Replying options (x.after options q e sys (e.goto pc effects)) pc
    (Dispatching.connection (e.continue q c pc effects)) replies reply (sent ++ wire effects)
  rw [after_goto (Or.inl hheaders), connection_continue, hrefuses, Bool.or_false]
  refine ⟨⟨h.answers.parts, h.answers.fresh⟩, h.refused, ?_, h.keeps, hdelivering, ?_, h.short⟩
  · show x.wire ++ wire effects = _
    rw [h.wire, List.append_assoc]
  · rw [hkeep]
    exact h.announces

theorem sendHeadersCase_progress
    (h : Replying options x e.pc (q.connections e.slot) replies reply sent)
    (hstate : (q.connections e.slot).state = .sendHeaders)
    (hs : e.sendHeadersCase options q sys (q.connections e.slot) = some s') :
    Progress options (x.after options q e sys s'.2) e s' := by
  obtain ⟨block, hdelivering⟩ := h.delivering
  have hrespond : ∀ {c}, c.sending = (q.connections e.slot).sending →
      c.keepAlive = (q.connections e.slot).keepAlive → e.respond options q sys c = some s' →
      Progress options (x.after options q e sys s'.2) e s' := by
    intro c hsending hkeep hs
    have hheaders : c.responseBufferHeaders = some reply.head :=
      (congrArg Sending.responseBufferHeaders hsending).trans hdelivering.headers
    unfold EventLoop.respond at hs
    rw [hheaders, if_neg (Option.some_ne_none _)] at hs
    refine replying_progress h hkeep rfl ⟨block, ?_⟩ (Option.some.inj hs)
    have hp := hdelivering.progress
    rw [show (q.connections e.slot).sending.state = .sendHeaders from hstate] at hp
    rw [show wire [] = [] from rfl, List.append_nil, hsending, hp.2.2.2]
    exact delivering_headers hstate hdelivering hdelivering.headersOffset (Or.inr rfl)
  unfold EventLoop.sendHeadersCase at hs
  split at hs
  · -- the request had no headers: it is processed once more, and may be refused now
    obtain ⟨⟨valid, c₁⟩, hparse, hs⟩ := Option.bind_eq_some_iff.mp hs
    have hkeep : c₁.keepAlive = (q.connections e.slot).keepAlive := by
      obtain ⟨_, _, _, _, _, _, _, _, rfl⟩ := processRequest_inv hparse
      rfl
    simp only at hs
    split at hs
    · exact answer_progress h.framed (Option.some.inj hs)
    · split at hs
      · exact answer_progress h.framed (Option.some.inj hs)
      · split at hs
        · exact answer_progress h.framed (Option.some.inj hs)
        · exact hrespond (processRequest_sending hparse) hkeep hs
  · exact hrespond rfl rfl hs

theorem sending_progress (h : Replying options x e.pc (q.connections e.slot) replies reply sent)
    (hbody : e.pc = .sendBody → sys.bodyFile = reply.body)
    (hst : e.step options q sys = some s') :
    Progress options (x.after options q e sys s'.2) e s' := by
  obtain ⟨block, hdelivering⟩ := h.delivering
  rcases hdelivering.pc_cases with hpc | ⟨hpc, hstate⟩ | ⟨hpc, hstate⟩
  · have hp := hdelivering.progress
    rw [hpc] at hdelivering
    cases hstate : (q.connections e.slot).state with
    | recv =>
      rw [show (q.connections e.slot).sending.state = .recv from hstate] at hp
      exact hp.elim
    | sendHeaders =>
      rw [EventLoop.step_switch_sendHeaders hpc hstate] at hst
      exact sendHeadersCase_progress h hstate hst
    | sendBody =>
      rw [show (q.connections e.slot).sending.state = .sendBody from hstate] at hp
      have hfd : (q.connections e.slot).bodyFd ≠ -1 := hp.2.1
      rw [EventLoop.step_switch_sendBody hpc hstate hfd] at hst
      refine replying_progress h rfl rfl ⟨block, ?_⟩ (Option.some.inj hst)
      rw [show wire [] = [] from rfl, List.append_nil, hp.2.2]
      exact delivering_body hstate hdelivering hdelivering.bodyOffset (Or.inr rfl)
    | done =>
      rw [show (q.connections e.slot).sending.state = .done from hstate] at hp
      obtain ⟨q', e'⟩ := s'
      rw [EventLoop.step_switch_done hpc hstate] at hst
      rcases EventLoop.doneCase_cases hst with ⟨hkeep, -, -, rfl⟩ | ⟨hkeep, -, -, rfl⟩ | ⟨-, heq⟩
      · refine .renewed (replies ++ [reply]) rfl ?_
        rw [after_silent (by simp) rfl rfl]
        exact h.settled hkeep hp.2
      · refine .renewed (replies ++ [reply]) rfl ?_
        rw [after_silent (by simp) rfl rfl]
        exact h.settled hkeep hp.2
      · refine replying_progress (c := { q.connections e.slot with state := .doneForClose }) h rfl rfl
          ⟨block, ?_⟩ heq.symm
        rw [show wire [.logged] = [] from rfl, List.append_nil]
        exact hdelivering.close
    | doneForClose =>
      rw [EventLoop.step_switch_doneForClose hpc hstate] at hst
      exact closeCase_progress h.framed (Option.some.inj hst)
  · rw [EventLoop.step_sendHeaders hpc] at hst
    obtain ⟨turn, hturn, hs⟩ := Option.map_eq_some_iff.mp hst
    have hkeep : turn.connection.keepAlive = (q.connections e.slot).keepAlive := by
      obtain ⟨_, _, -, hc⟩ := sendResponseHeadersTurn_inv hturn
      rw [hc]
    refine replying_progress h hkeep (by split <;> rfl) ⟨block, ?_⟩ hs
    rw [wire_effectOf_sent]
    exact sendResponseHeadersTurn_delivering h.short.1 hstate hdelivering hturn
  · rw [EventLoop.step_sendBody hpc, hbody hpc] at hst
    have hkeep : (sendResponseFileTurn (q.connections e.slot) reply.body sys.send).connection.keepAlive =
        (q.connections e.slot).keepAlive := by
      obtain ⟨_, _, _, -, hc⟩ := sendResponseFileTurn_inv (q.connections e.slot) reply.body sys.send
      rw [hc]
    refine replying_progress h hkeep (by split <;> rfl) ⟨block, ?_⟩ (Option.some.inj hst)
    rw [wire_effectOf_sent]
    exact sendResponseFileTurn_delivering h.short.2 hstate hdelivering sys.send

theorem refusing_progress (h : x.Framed options replies) (hrefused : x.refused = true)
    (hplace : e.pc.refuses ∨ e.pc = .switch ∧ (q.connections e.slot).state = .doneForClose)
    (hst : e.step options q sys = some s') :
    Progress options (x.after options q e sys s'.2) e s' := by
  -- a turn of `sendAll`, or its end
  have hgoes : ∀ {c pc effects}, pc ≠ .sendHeaders →
      pc.refuses ∨ pc = .switch ∧ c.state = .doneForClose → e.continue q c pc effects = s' →
      Progress options (x.after options q e sys s'.2) e s' := by
    rintro c pc effects hpc hnext rfl
    have hafter : x.after options q e sys (e.goto pc effects) =
        ⟨x.answers, x.wire ++ wire effects, true⟩ := by
      rw [after_goto (Or.inr hpc), hrefused, Bool.true_or]
    refine .goesOn (.refusing replies ?_ ?_ ?_)
    · show (x.after options q e sys (e.goto pc effects)).Framed options replies
      rw [hafter]
      exact h.refused _
    · exact congrArg Exchange.refused hafter
    · rw [connection_continue, pc_continue]
      exact hnext
  rcases hplace with hpc | ⟨hpc, hstate⟩
  · cases hbuffer : e.pc with
    | sendAll buffer leftToWrite =>
      rw [step_sendAll options q e sys buffer [] leftToWrite hbuffer] at hst
      have hs := Option.some.inj hst
      simp only at hs
      split at hs
      · exact hgoes (by simp) (Or.inr ⟨rfl, rfl⟩) hs
      · exact hgoes (by simp) (Or.inl rfl) hs
    | _ =>
      rw [hbuffer] at hpc
      cases hpc
  · rw [EventLoop.step_switch_doneForClose hpc hstate] at hst
    exact closeCase_progress h (Option.some.inj hst)

/-- **What every step of a loop does to what its client has read.** -/
theorem Stage.progress (h : Stage options x e (q.connections e.slot)) (henv : sys.response.OneLine)
    (hbody : e.pc = .sendBody → x.answers.getLast?.map Answer.body = some sys.bodyFile)
    (hst : e.step options q sys = some s') :
    Progress options (x.after options q e sys s'.2) e s' := by
  cases h with
  | receiving replies hsettled hreceiving => exact receiving_progress hsettled hreceiving henv hst
  | sending replies reply sent hreplying =>
    refine sending_progress hreplying (fun hpc => ?_) hst
    have hlast := congrArg (fun l => (l.getLast?).map Prod.snd) hreplying.answers.parts
    simp only [List.map_append, List.map_singleton, List.getLast?_append, List.getLast?_singleton,
      Option.some_or, Option.map_some, List.getLast?_map, Option.map_map] at hlast
    have hfile := hbody hpc
    exact Option.some.inj (hfile.symm.trans hlast.symm)
  | refusing replies hframed hrefused hplace => exact refusing_progress hframed hrefused hplace hst

end Stages

/-! ### Runs of a thread -/

section Stages

variable {options : Options} {x : Exchange} {e : EventLoop} {c : QueueConnectionElementType}

theorem Stage.framed (h : Stage options x e c) : ∃ replies, x.Framed options replies := by
  cases h with
  | receiving replies hsettled hreceiving => exact ⟨replies, hsettled.framed⟩
  | sending replies reply sent hreplying => exact ⟨replies ++ [reply], hreplying.framed⟩
  | refusing replies hframed hrefused hplace => exact ⟨replies, hframed⟩

theorem Stage.goesOn (h : Stage options x e c) : e.pc ≠ .ended := by
  intro hended
  cases h with
  | receiving replies hsettled hreceiving => cases hreceiving <;> simp_all
  | sending replies reply sent hreplying =>
    obtain ⟨block, hdelivering⟩ := hreplying.delivering
    rcases hdelivering.pc_cases with hpc | ⟨hpc, -⟩ | ⟨hpc, -⟩ <;> rw [hended] at hpc <;> cases hpc
  | refusing replies hframed hrefused hplace =>
    rw [hended] at hplace
    rcases hplace with hpc | ⟨hpc, -⟩ <;> cases hpc

end Stages

/-- What holds of a thread and its clients in every state. -/
structure Conversing (options : Options) (s : Served) : Prop where
  clean : CleanSlate s.thread
  stage : ∀ e ∈ s.thread.worker.phase.loop, e.pc ≠ .ended →
    Stage options (s.exchanges e.clientFd) e (s.thread.worker.queue.connections e.slot)
  settled : ∀ fd c, getConnectionByFd s.thread.worker.queue fd = some c →
    (∀ e ∈ s.thread.worker.phase.loop, e.pc ≠ .ended → e.clientFd ≠ fd) →
    ∃ replies, (s.exchanges fd).Settled options replies
  framed : ∀ fd, ∃ replies, (s.exchanges fd).Framed options replies

section Threads

variable {options : Options} {s s' : Served} {t : Thread} {a : WorkerAction}

theorem conversing_init (clock : ℤ) : Conversing options (.init clock) where
  clean := cleanSlate_init clock
  stage := fun _ he => by cases he
  settled := fun _ _ hc => by cases hc
  framed := fun _ => ⟨[], Exchange.settled_opened.framed⟩

theorem exchangesAfter_rest (hloop : s.thread.worker.phase.loop = none ∨ t.worker.phase.loop = none)
    (htakes : s.thread.worker.takes a = none) : s.exchangesAfter options t a = s.exchanges := by
  unfold Served.exchangesAfter
  split
  · rename_i hpre hpost
    rw [hpre, hpost] at hloop
    rcases hloop with hloop | hloop <;> cases hloop
  · rw [htakes]

theorem exchangesAfter_take {fd : ℕ} (hloop : s.thread.worker.phase.loop = none)
    (htakes : s.thread.worker.takes a = some fd) :
    s.exchangesAfter options t a =
      if existsConnection s.thread.worker.queue fd then s.exchanges
      else Function.update s.exchanges fd .opened := by
  unfold Served.exchangesAfter
  rw [hloop]
  simp only [htakes]

theorem exchangesAfter_call {e e' : EventLoop} {sys : Sys}
    (hpre : s.thread.worker.phase.loop = some e) (hpost : t.worker.phase.loop = some e') :
    s.exchangesAfter options t (.call sys) =
      Function.update s.exchanges e.clientFd
        ((s.exchanges e.clientFd).after options s.thread.worker.queue e sys e') := by
  unfold Served.exchangesAfter
  rw [hpre, hpost]

/-- A record just made or renewed is one into which nothing has been received. -/
theorem receiving_start {c : QueueConnectionElementType} {fd : ℕ} {now : ℤ} {mem : RequestBlock}
    (h : c = freshConnection fd now mem) : Receiving [] .switch c :=
  .storing fd now mem h (Or.inl rfl) (Nat.zero_le _)

theorem Worker.step_call {w w' : Worker} {e e' : EventLoop} {sys : Sys} {effects : List (ℕ × Effect)}
    (h : w.step options (.call sys) = some (w', effects)) (hloop : w.phase.loop = some e)
    (hloop' : w'.phase.loop = some e') : e.step options w.queue sys = some (w'.queue, e') := by
  cases Worker.step_cases h with
  | call sys e₁ e₁' events queue hp hcall =>
    rw [hp] at hloop
    obtain rfl : e₁ = e := Option.some.inj hloop
    obtain rfl : e₁' = e' := Option.some.inj hloop'
    exact hcall

theorem conversing_taken {now : ℤ} {mem : RequestBlock} {fd slot : ℕ} (h : Conversing options s)
    (hclean : CleanSlate t) (hloop : s.thread.worker.phase.loop = none)
    (htakes : s.thread.worker.takes a = some fd)
    (hloop' : t.worker.phase.loop = some (.start fd slot))
    (hm : getConnectionByFd t.worker.queue = Function.update (getConnectionByFd s.thread.worker.queue)
      fd (some ((getConnectionByFd s.thread.worker.queue fd).getD (freshConnection fd now mem)))) :
    Conversing options ⟨t, s.exchangesAfter options t a⟩ := by
  have hx : s.exchangesAfter options t a = _ := exchangesAfter_take hloop htakes
  have hothers : ∀ fd', fd' ≠ fd → s.exchangesAfter options t a fd' = s.exchanges fd' := by
    intro fd' hne
    rw [hx]
    split
    · rfl
    · exact Function.update_of_ne hne _ _
  have hnone : ∀ fd', ∀ e ∈ s.thread.worker.phase.loop, e.pc ≠ .ended → e.clientFd ≠ fd' := by
    intro fd' e he
    rw [hloop] at he
    cases he
  -- the client has a record between two requests, or has none
  have hclient : (∃ replies, (s.exchangesAfter options t a fd).Settled options replies) ∧
      ∃ fd' now' mem', t.worker.queue.connections slot = freshConnection fd' now' mem' := by
    have hrecord := hclean.sound.record hloop' (by simp [EventLoop.start])
    rw [show (EventLoop.start fd slot).clientFd = fd from rfl,
      show (EventLoop.start fd slot).slot = slot from rfl, hm, Function.update_self] at hrecord
    rw [hx]
    cases hc : getConnectionByFd s.thread.worker.queue fd with
    | none =>
      rw [hc] at hrecord
      refine ⟨⟨[], ?_⟩, fd, now, mem, (Option.some.inj hrecord).symm⟩
      rw [if_neg, Function.update_self]
      · exact Exchange.settled_opened
      · unfold existsConnection
        rw [getConnectionByFd_eq_none.mp hc]
        simp
    | some c =>
      rw [hc] at hrecord
      obtain ⟨mem', hpristine⟩ := h.clean.pristine hloop fd c nofun hc
      refine ⟨?_, c.clientFd, c.priorityTime, mem', ?_⟩
      · rw [if_pos]
        · exact h.settled fd c hc (hnone fd)
        · unfold existsConnection
          cases hindex : s.thread.worker.queue.indexQueue fd with
          | some index => rfl
          | none =>
            rw [getConnectionByFd_eq_none.mpr hindex] at hc
            cases hc
      · rw [← hpristine]
        exact (Option.some.inj hrecord).symm
  obtain ⟨⟨replies, hsettled⟩, fd', now', mem', hfresh⟩ := hclient
  refine ⟨hclean, fun e he _ => ?_, fun fd' c hc hother => ?_, fun fd' => ?_⟩
  · obtain rfl := Option.some.inj (hloop'.symm.trans he)
    refine .receiving replies hsettled ?_
    exact receiving_start (c := t.worker.queue.connections slot) hfresh
  · have hne : fd' ≠ fd := Ne.symm (hother _ hloop' (by simp [EventLoop.start]))
    have hc : getConnectionByFd t.worker.queue fd' = some c := hc
    rw [hm, Function.update_of_ne hne] at hc
    show ∃ replies, (s.exchangesAfter options t a fd').Settled options replies
    rw [hothers fd' hne]
    exact h.settled fd' c hc (hnone fd')
  · by_cases hne : fd' = fd
    · subst hne
      exact ⟨replies, hsettled.framed⟩
    · show ∃ replies, (s.exchangesAfter options t a fd').Framed options replies
      rw [hothers fd' hne]
      exact h.framed fd'

theorem EventLoop.Handled.records {q q' : QueueConnectionsType} {sys : Sys} {e e' : EventLoop}
    (h : e.Handled q sys q' e') :
    ∃ r, getConnectionByFd q' = Function.update (getConnectionByFd q) e.clientFd r := by
  cases h with
  | turned pc effects hm => exact ⟨_, hm⟩
  | updated hm => exact ⟨_, hm⟩
  | dequeued hm hstate => exact ⟨_, hm⟩

theorem conversing_handled {e e' : EventLoop} {sys : Sys} (h : Conversing options s)
    (hclean : CleanSlate t) (hloop : s.thread.worker.phase.loop = some e) (hpc : e.pc ≠ .ended)
    (hloop' : t.worker.phase.loop = some e')
    (hhandled : e.Handled s.thread.worker.queue sys t.worker.queue e')
    (hbody : BodyUnchanged s (.call sys)) (hline : sys.response.OneLine)
    (hst : e.step options s.thread.worker.queue sys = some (t.worker.queue, e')) :
    Conversing options ⟨t, s.exchangesAfter options t (.call sys)⟩ := by
  have hx : s.exchangesAfter options t (.call sys) = _ := exchangesAfter_call hloop hloop'
  have hfile : e.pc = .sendBody →
      (s.exchanges e.clientFd).answers.getLast?.map Answer.body = some sys.bodyFile :=
    hbody e hloop sys rfl
  have hprogress := (h.stage e hloop hpc).progress hline hfile hst
  have hself : s.exchangesAfter options t (.call sys) e.clientFd =
      (s.exchanges e.clientFd).after options s.thread.worker.queue e sys e' := by
    rw [hx, Function.update_self]
  rw [← hself] at hprogress
  -- the other clients
  obtain ⟨r, hm⟩ := hhandled.records
  have hothers : ∀ fd c, fd ≠ e.clientFd → getConnectionByFd t.worker.queue fd = some c →
      ∃ replies, (s.exchangesAfter options t (.call sys) fd).Settled options replies := by
    intro fd c hne hc
    rw [hm, Function.update_of_ne hne] at hc
    rw [hx, Function.update_of_ne hne]
    refine h.settled fd c hc fun e₁ he₁ _ => ?_
    obtain rfl := Option.some.inj (hloop.symm.trans he₁)
    exact hne.symm
  have hclientFd : e'.clientFd = e.clientFd := by
    cases hhandled with
    | turned pc effects => rfl
    | updated hm => rfl
    | dequeued hm hstate => rfl
  refine ⟨hclean, fun e₁ he₁ hpc₁ => ?_, fun fd c hc hother => ?_, fun fd => ?_⟩
  · obtain rfl := Option.some.inj (hloop'.symm.trans he₁)
    show Stage options (s.exchangesAfter options t (.call sys) e'.clientFd) e'
      (t.worker.queue.connections e'.slot)
    rw [hclientFd]
    cases hprogress with
    | goesOn hstage => exact hstage
    | renewed replies hended hsettled => exact absurd hended hpc₁
    | closed replies hended hframed hrearmed => exact absurd hended hpc₁
  · by_cases hne : fd = e.clientFd
    · subst hne
      -- the loop is over and the client has a record: it was re-armed
      cases hprogress with
      | goesOn hstage => exact absurd hclientFd (hother e' hloop' hstage.goesOn)
      | renewed replies hended hsettled => exact ⟨replies, hsettled⟩
      | closed replies hended hframed hrearmed =>
        cases hhandled with
        | turned pc effects hm hidx hsame hopen => exact absurd hended hopen
        | updated hm =>
          rw [EventLoop.goto_newEffects] at hrearmed
          exact absurd (by simp) hrearmed
        | dequeued hm hstate =>
          have hc : getConnectionByFd t.worker.queue e.clientFd = some c := hc
          rw [hm, Function.update_self] at hc
          cases hc
    · exact hothers fd c hne hc
  · by_cases hne : fd = e.clientFd
    · subst hne
      cases hprogress with
      | goesOn hstage => exact hstage.framed
      | renewed replies hended hsettled => exact ⟨replies, hsettled.framed⟩
      | closed replies hended hframed hrearmed => exact ⟨replies, hframed⟩
    · show ∃ replies, (s.exchangesAfter options t (.call sys) fd).Framed options replies
      rw [hx, Function.update_of_ne hne]
      exact h.framed fd

/-- **What every step of a thread keeps.** -/
theorem conversing_step (hst : ServedStep options s a s') (hbody : BodyUnchanged s a)
    (hline : a.OneLine) (h : Conversing options s) : Conversing options s' := by
  obtain ⟨t, ht, rfl⟩ := Option.map_eq_some_iff.mp hst
  have hclean : CleanSlate t := cleanSlate_step ht h.clean
  obtain ⟨htimely, ⟨effects, hstep⟩, -, -⟩ := threadStep_inv ht
  obtain ⟨-, hmoved⟩ := Worker.step_spec h.clean.sound htimely hstep
  cases hmoved with
  | rested a w' hrests htakes =>
    rw [exchangesAfter_rest (Or.inr hrests.loop) htakes]
    refine ⟨hclean, fun e he => ?_, fun fd c hc _ => ?_, h.framed⟩
    · have he : e ∈ t.worker.phase.loop := he
      rw [hrests.loop] at he
      cases he
    · have hc : getConnectionByFd t.worker.queue fd = some c := hc
      rw [hrests.queue] at hc
      exact h.settled fd c hc fun e he hpc => absurd (hrests.ended e he) hpc
  | swept now fd c₀ w' hp hp' hexpired hc₀ hold hm =>
    rw [exchangesAfter_rest (Or.inl (by rw [hp]; rfl)) rfl]
    refine ⟨hclean, fun e he => ?_, fun fd' c hc _ => ?_, h.framed⟩
    · have he : e ∈ t.worker.phase.loop := he
      rw [hp'] at he
      cases he
    · have hc : getConnectionByFd t.worker.queue fd' = some c := hc
      have hne : fd' ≠ fd := by
        rintro rfl
        rw [hm, Function.update_self] at hc
        cases hc
      rw [hm, Function.update_of_ne hne] at hc
      refine h.settled fd' c hc fun e he => ?_
      rw [hp] at he
      cases he
  | taken now mem fd slot w' htakes hloop hfd hloop' hm =>
    exact conversing_taken h hclean hloop htakes hloop' hm
  | handled sys e e' w' hloop hpc hloop' hhandled =>
    have hst := Worker.step_call hstep hloop hloop'
    exact conversing_handled h hclean hloop hpc hloop' hhandled hbody hline hst

/-- What a client has read of a connection for which `replies` were built. -/
structure ClientReads (options : Options) (x : Exchange) (replies : List Reply) : Prop where
  answers : x.Answers options replies
  /-- Only the last response may say that the connection is closed. -/
  keeps : ∀ reply ∈ replies.dropLast, Keeps reply
  /-- Every response but the last one is read, whatever is sent afterwards. -/
  complete : replies.dropLast <+: (replyCode.decodeAll x.wire).1
  /-- Nothing else is read unless a fixed response has been begun: the last response is read as well,
  or a part of it has come in. -/
  reads : x.refused = false → replyCode.decodeAll x.wire = (replies, []) ∨
    ∃ reply part, replies = replies.dropLast ++ [reply] ∧
      replyCode.decodeAll x.wire = (replies.dropLast, part) ∧
      part <+: replyCode.render reply ∧ part ≠ replyCode.render reply

theorem Exchange.Framed.reads {x : Exchange} {replies : List Reply}
    (h : x.Framed options replies) : ClientReads options x replies where
  answers := h.answers
  keeps := h.keeps
  complete := by
    obtain ⟨rest, hrest⟩ := h.complete
    rw [← hrest]
    exact StreamCode.prefix_decodeAll _ rest
  reads := fun hrefused => StreamCode.decodeAll_cases h.complete (h.nothingElse hrefused)

/-- **What the clients read.** A thread serves its clients in any order, its files stay as they are
while they are sent, and the texts it gets for a head have no line breaks. Then in every state each
client cuts out of what it has received the responses built for its connection, in their order, and
each of them is the one that a connection just opened gives to the bytes of its request. Before
`epoll_wait`, a client whose connection is kept has read all of them, and each says so. -/
theorem clients_read {clock : ℤ} {h : List (Transition Served WorkerAction)}
    (hr : Run (ServedStep options) (.init clock) h s) (hbody : Guarded BodyUnchanged h)
    (hline : ∀ e ∈ h, e.act.OneLine) :
    (∀ fd, ∃ replies, ClientReads options (s.exchanges fd) replies) ∧
    (s.thread.worker.phase = .waiting →
      ∀ fd c, getConnectionByFd s.thread.worker.queue fd = some c →
        ∃ replies, (s.exchanges fd).Answers options replies ∧
          replyCode.decodeAll (s.exchanges fd).wire = (replies, []) ∧
          ∀ reply ∈ replies, Keeps reply) := by
  have hguard : Guarded (fun s a => BodyUnchanged s a ∧ a.OneLine) h :=
    fun e he => ⟨hbody e he, hline e he⟩
  have hconversing : Conversing options s := hr.invariant_of_guard (conversing_init clock)
    (fun _ _ _ hst hg hinv => conversing_step hst hg.1 hg.2 hinv) hguard
  constructor
  · intro fd
    obtain ⟨replies, hframed⟩ := hconversing.framed fd
    exact ⟨replies, hframed.reads⟩
  · intro hp fd c hc
    obtain ⟨replies, hsettled⟩ := hconversing.settled fd c hc fun e he => by
      rw [hp] at he
      cases he
    refine ⟨replies, hsettled.answers, ?_, hsettled.keeps⟩
    rw [hsettled.wire]
    exact StreamCode.decodeAll_flatMap replies

end Threads

/-! ### Two requests on one connection -/

/-- The second response goes out in pieces. -/
def indexPageServedTwice : List WorkerAction :=
  indexPageServed ++
    [.endEvent, .nextEvent 102 .zeroed, .readTime 103, .sweep, .epollWait [.client 5 true],
      .nextEvent 103 .zeroed, .call (localSys 103),
      .call { localSys 103 with recv := .data indexPageRequest }, .call (localSys 103),
      .call { localSys 103 with send := .sent 20 }, .call { localSys 103 with send := .sent 1024 },
      .call (localSys 103), .call { localSys 103 with send := .sent 2 },
      .call { localSys 103 with send := .sent 9 }, .call (localSys 104), .endEvent,
      .nextEvent 104 .zeroed, .readTime 104, .sweep]

theorem indexPageServedTwice_oneLine : ∀ a ∈ indexPageServedTwice, a.OneLine := by
  unfold indexPageServedTwice indexPageServed
  simp only [List.forall_mem_append, List.forall_mem_cons, WorkerAction.OneLine, localSys,
    localResponseEnv_oneLine, List.not_mem_nil, false_imp_iff, implies_true, and_self]

theorem clients_read_twice :
    ∃ s : Served, (s.exchanges 5).answers.length = 2 ∧
      ∃ replies, (s.exchanges 5).Answers wwwOptions replies ∧
        replyCode.decodeAll (s.exchanges 5).wire = (replies, []) ∧ ∀ reply ∈ replies, Keeps reply := by
  obtain ⟨s, hs, hp⟩ := (Option.any_eq_true ..).mp (show (exec (guardedNext (Served.next wwwOptions)
    BodyUnchanged) (.init 100) indexPageServedTwice).any (fun s =>
      s.thread.worker.phase = .waiting ∧ (getConnectionByFd s.thread.worker.queue 5).isSome ∧
        (s.exchanges 5).answers.length = 2) by decide +kernel)
  obtain ⟨hphase, hrecord, htwo⟩ := of_decide_eq_true hp
  obtain ⟨c, hc⟩ := Option.isSome_iff_exists.mp hrecord
  obtain ⟨hexec, hguarded⟩ := guarded_of_exec hs
  refine ⟨s, htwo, (clients_read (run_of_exec hexec) hguarded fun e he => ?_).2 hphase 5 c hc⟩
  exact indexPageServedTwice_oneLine e.act (act_mem_of_history he)

end UbServer

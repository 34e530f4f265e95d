import UbServer.BlockedSocket
import UbServer.ResponseHead

/-!
# What the response announces, and what becomes of the connection

A response that `makeResponse` has built, from its first byte to the end of the loop, on infinite
scripts in which no system call fails hard and calls that transfer something keep coming.

* `announced`: the `connection` field of the response header.
* `AgreedFate`: the response is delivered and logged once, and the connection is kept or closed as
  announced.
* `announcedFate_iff`: the responses for which that is so. `sendfile` returns 0 for an empty file as
  it does for a client that is gone.
-/

namespace UbServer

open CString Runs QueueConnectionsType

/-! ### The announcement -/

/-- The value of the first `connection` field in a response header. -/
def announced (head : Bytes) : Option Bytes :=
  ((head.splitOn 10).find? (bytes "connection: ").isPrefixOf).map (·.drop 12)

section Announced

variable {line rest : Bytes}

theorem announced_eq (head : Bytes) : announced head = fieldOf (bytes "connection: ") head := by
  have hlength : (bytes "connection: ").length = 12 := by decide +kernel
  unfold announced fieldOf
  rw [hlength]

theorem announced_other (hline : (10 : UInt8) ∉ line)
    (hother : (bytes "connection: ").isPrefixOf line = false) (rest : Bytes) :
    announced (line ++ 10 :: rest) = announced rest := by
  rw [announced_eq, announced_eq]
  exact fieldOf_other hline hother rest

theorem announced_connection {value : Bytes} (hvalue : (10 : UInt8) ∉ value) (rest : Bytes) :
    announced (bytes "connection: " ++ value ++ 10 :: rest) = some value := by
  rw [announced_eq]
  exact fieldOf_self (by decide +kernel) hvalue rest

theorem announced_responseHeaderTexts {c : QueueConnectionElementType}
    {mimeType lastModifiedDate currentDate : Bytes}
    (hprotocol : supportedProtocol c.protocolVersion) :
    announced (responseHeaderTexts c mimeType lastModifiedDate currentDate).flatten =
      some (if asksKeepAlive c.requestHeaders then bytes "keep-alive" else bytes "close") := by
  have hbreak : bytes "\n" = [10] := by decide +kernel
  have hencoding : bytes "content-encoding: gzip\n" = bytes "content-encoding: gzip" ++ [10] := by
    decide +kernel
  have hkeep : bytes "connection: keep-alive\n" =
      bytes "connection: " ++ bytes "keep-alive" ++ [10] := by decide +kernel
  have hclose : bytes "connection: close\n" = bytes "connection: " ++ bytes "close" ++ [10] := by
    decide +kernel
  -- neither the status line nor the encoding is such a field
  have hstatus : (10 : UInt8) ∉ statusLine c ∧
      (bytes "connection: ").isPrefixOf (statusLine c) = false := by
    unfold statusLine
    rcases supportedProtocol_cases hprotocol with h | h <;>
    · rw [h]
      cases c.responseStatusCode <;> decide +kernel
  have hother : ∀ rest, announced ((if c.contentEncoding = .gzip then
      [bytes "content-encoding: gzip\n"] else []).flatten ++ rest) = announced rest := by
    intro rest
    split
    · rw [List.flatten_singleton, hencoding, List.append_assoc]
      exact announced_other (by decide +kernel) (by decide +kernel) rest
    · rfl
  unfold responseHeaderTexts
  rw [List.flatten_append, List.flatten_append, List.flatten_append, List.flatten_singleton, hbreak,
    List.append_assoc, List.append_assoc, List.append_assoc _ [10]]
  refine (announced_other hstatus.1 hstatus.2 _).trans ((hother _).trans ?_)
  split
  · rw [hkeep, List.flatten_cons, List.append_assoc, List.append_assoc _ [10]]
    exact announced_connection (by decide +kernel) _
  · rw [hclose, List.flatten_cons, List.append_assoc, List.append_assoc _ [10]]
    exact announced_connection (by decide +kernel) _

end Announced

/-! ### The response built -/

section Built

variable {options : Options} {env : RequestEnv} {response : ResponseEnv} {disk : Disk}
  {c c' : QueueConnectionElementType} {built : Built} {block : Bytes}

theorem makeResponse_announced (hprotocol : supportedProtocol c.protocolVersion)
    (h : makeResponse options response disk c = some built) {head : Bytes}
    (hhead : built.connection.responseBufferHeaders = some head) :
    announced head =
      some (if built.connection.keepAlive then bytes "keep-alive" else bytes "close") := by
  obtain ⟨-, -, file, code, size, mimeType, lastModifiedDate, currentDate, printed, encoded, -, -,
    hsize, hmime, hencoded, hmodified, hcurrent, hprinted, rfl⟩ := makeResponse_inv h
  obtain ⟨bodyFd, size', encoding, hsize', hconnection⟩ := encodeBody_inv hsize rfl hencoded
  have hprotocol' : supportedProtocol encoded.connection.protocolVersion := by
    rw [hconnection]
    exact hprotocol
  have hlength : encoded.connection.bodyLength < 2 ^ 64 := by
    rw [hconnection]
    exact (stSize_inv hsize').2.trans (by decide)
  have hfit := length_responseHeaderTexts (supportedProtocol_length hprotocol')
    (getMimeType_length hmime) (fits_inv hmodified).2 (fits_inv hcurrent).2 hlength
  obtain rfl := Option.some.inj ((printAll_of_lt hfit).symm.trans hprinted)
  obtain rfl := Option.some.inj hhead
  exact announced_responseHeaderTexts hprotocol'

/-- The request in the record is answered with a response of `makeResponse` whenever it is processed
again, whatever the local arrays hold. -/
def Reanswerable (options : Options) (c : QueueConnectionElementType) : Prop :=
  c.requestHeaders ≠ [] ∨ ∀ env, env.peer.isSome → GoesOn options env c

/-- With fewer than three tokens, a request is refused when the array for the version holds the
empty string. -/
theorem refused_of_short (hbuffer : c.requestBuffer = some block) (hon : GoesOn options env c)
    (hshort : (requestLineTokens block).length ≠ 3) :
    ∃ valid c', processRequest options ⟨some [], [], [], []⟩ c = some (valid, c') ∧
      Refused valid c' := by
  obtain ⟨c₁, hparse, -, -⟩ := hon
  obtain ⟨block', line, method, path, protocolVersion, hblock', -, hcrlf, hscan, -⟩ :=
    processRequest_accepted hparse
  obtain rfl : block' = block := Option.some.inj (hblock'.symm.trans hbuffer)
  obtain ⟨⟨hm, hmlt⟩, ⟨hp, hplt⟩, hv, hvlt⟩ := scanRequestLine_inv hscan
  rw [requestLineTokens_eq hcrlf] at hshort
  have hlt : (scanWords 3 ((cString block').take line)).length < 3 :=
    lt_of_le_of_ne (length_scanWords_le 3 _) hshort
  have hfits : ∀ (i : ℕ) (token : Bytes) (size : ℕ),
      (scanWords 3 ((cString block').take line))[i]? = some token → tokenSizes[i]? = some size →
        token.length < size := by
    intro i token size htoken hsize
    have hgetD : ∀ default, (scanWords 3 ((cString block').take line)).getD i default = token :=
      fun default => by rw [List.getD_eq_getElem?_getD, htoken, Option.getD_some]
    match i, hsize with
    | 0, hsize =>
      obtain rfl := Option.some.inj hsize
      rwa [hm, hgetD] at hmlt
    | 1, hsize =>
      obtain rfl := Option.some.inj hsize
      rwa [hp, hgetD] at hplt
    | 2, hsize =>
      obtain rfl := Option.some.inj hsize
      rwa [hv, hgetD] at hvlt
  obtain ⟨method', path', hscan'⟩ := scanRequestLine_short hlt hfits [] [] (by decide)
  obtain ⟨c', hparse', -, -, hversion⟩ : ∃ c', processRequest options _ c = some (_, c') ∧ _ :=
    processRequest_scanned hbuffer rfl hcrlf hscan'
  refine ⟨_, c', hparse', Or.inr (Or.inl ?_)⟩
  rw [hversion]
  decide +kernel

theorem goesOn_of_three (hbuffer : c.requestBuffer = some block) (hon : GoesOn options env c)
    (hthree : (requestLineTokens block).length = 3) {env' : RequestEnv}
    (hpeer' : env'.peer.isSome) : GoesOn options env' c := by
  obtain ⟨c₁, hparse, hprotocol, hhello⟩ := hon
  obtain ⟨block', line, method, path, protocolVersion, hblock', hpeer, hcrlf, hscan, hmethod⟩ :=
    processRequest_accepted hparse
  obtain rfl : block' = block := Option.some.inj (hblock'.symm.trans hbuffer)
  obtain ⟨⟨hm, hmlt⟩, ⟨hp, hplt⟩, hv, hvlt⟩ := scanRequestLine_inv hscan
  rw [requestLineTokens_eq hcrlf] at hthree
  obtain ⟨m, p, v, htokens⟩ := List.length_eq_three.mp hthree
  rw [htokens] at hm hp hv
  obtain rfl : method = m := hm
  obtain rfl : path = p := hp
  obtain rfl : protocolVersion = v := hv
  have hline : RequestLine block' method path protocolVersion :=
    ⟨line, hcrlf, htokens, hmlt, hplt, hvlt⟩
  obtain ⟨c₂, hparse₂, hpath₂, hversion₂, -⟩ :=
    processRequest_requestLine options hline hmethod hbuffer hpeer
  obtain rfl := (Prod.mk.inj (Option.some.inj (hparse₂.symm.trans hparse))).2
  obtain ⟨c₃, hparse₃, hpath₃, hversion₃, -⟩ :=
    processRequest_requestLine options hline hmethod hbuffer hpeer'
  exact ⟨c₃, hparse₃, by rwa [hversion₃, ← hversion₂], by rwa [hpath₃, ← hpath₂]⟩

end Built

/-! ### Scripts in which nothing fails hard -/

/-- What a call for `asked` bytes may return when nothing fails hard. -/
def SendResult.Soft (asked : ℕ) : SendResult → Prop
  | .sent count => 0 < asked → 0 < count
  | .eintr => 0 < asked
  | .eagain => 0 < asked
  | .error => False

/-- The bytes that the next step asks `send` or `sendfile` to take, if it calls them. -/
def Dispatching.asked (s : Dispatching) : Option ℕ :=
  match s.2.pc with
  | .sendHeaders => some (sizeSub s.connection.responseBufferHeadersLength
      s.connection.responseBufferHeadersOffset)
  | .sendBody => some (sizeSub s.connection.bodyLength s.connection.bodyOffset)
  | .sendAll buffer leftToWrite => if leftToWrite = 0 then none else some buffer.length
  | _ => none

/-- No system call of the next step fails hard, and the file behind `bodyFd` is `body`. -/
structure StepsSoftly (body : Bytes) (s : Dispatching) (sys : Sys) : Prop where
  peer : sys.request.peer.isSome
  bodyFile : sys.bodyFile = body
  send : ∀ asked, s.asked = some asked → sys.send.Soft asked

/-- The next step calls `send` or `sendfile`, which transfers what there is. -/
def Transfers (s : Dispatching) (sys : Sys) : Prop :=
  s.asked.isSome ∧ ∃ count, sys.send = .sent count

/-- No system call of the script fails hard, and after every call for bytes one that transfers
comes. -/
structure Willing (options : Options) (body : Bytes) (s : Dispatching) (script : ℕ → Sys) :
    Prop where
  soft : ∀ k t, trace (loopNext options) s script k = some t → StepsSoftly body t (script k)
  progress : ∀ k t, trace (loopNext options) s script k = some t → t.asked.isSome →
    ∃ i u, trace (loopNext options) s script (k + i) = some u ∧ Transfers u (script (k + i))

/-- The loop is about to execute `STATE_CONNECTION_DONE`. -/
def AtDone (s : Dispatching) : Prop := s.2.pc = .switch ∧ s.connection.state = .done

/-- The loop has ended as announced: the response is delivered and logged once, and the connection
is re-armed if the header says that it is kept, and closed if it says that it is closed. -/
structure EndedAsAnnounced (head body : Bytes) (s : Dispatching) : Prop where
  ended : s.2.pc = .ended
  delivered : wire s.2.effects = head ++ body
  logged : s.2.effects.count .logged = 1
  rearmed : .rearmed ∈ s.2.effects ↔ announced head = some (bytes "keep-alive")
  closed : .closed ∈ s.2.effects ↔ announced head = some (bytes "close")

/-- **The announced fate** on a script: the loop passes through `STATE_CONNECTION_DONE` and ends as
announced. -/
structure AgreedFate (options : Options) (head body : Bytes) (s : Dispatching)
    (script : ℕ → Sys) : Prop where
  done : Reaches (loopNext options) AtDone s script
  ended : Reaches (loopNext options) (EndedAsAnnounced head body) s script

/-! ### While the response is sent -/

/-- An effect of receiving or sending. -/
def Effect.IsTransfer : Effect → Prop
  | .received _ => True
  | .sent _ => True
  | _ => False

/-- The response is being sent, and nothing else has happened on the descriptor. -/
structure InFlight (options : Options) (block head body : Bytes) (keepAlive : Bool)
    (s : Dispatching) : Prop where
  delivering : Delivering block head body (wire s.2.effects) s.2.pc s.connection.sending
  keepAlive : s.connection.keepAlive = keepAlive
  reanswerable : Reanswerable options s.connection
  transfers : ∀ effect ∈ s.2.effects, effect.IsTransfer
  queued : existsConnection s.1 s.2.clientFd

/-- A part of the header, or all of it and a part of the body, is still to be sent. -/
def Unsent (head body : Bytes) (c : QueueConnectionElementType) : Prop :=
  match c.state with
  | .sendHeaders => c.responseBufferHeadersOffset < head.length
  | .sendBody => c.bodyOffset < body.length
  | _ => False

/-- What a step does while the response is sent: it goes on with it or has sent it all, and a call
that transfers puts something on the wire. -/
structure Sends (options : Options) (block head body : Bytes) (keepAlive : Bool) (s : Dispatching)
    (sys : Sys) (t : Dispatching) : Prop where
  inFlight : InFlight options block head body keepAlive t
  unsent : Unsent head body t.connection ∨ t.connection.state = .done
  calls : s.asked = none → t.asked.isSome
  grows : (wire s.2.effects).length ≤ (wire t.2.effects).length
  transfers : Transfers s sys → (wire s.2.effects).length < (wire t.2.effects).length

section Sending

variable {options : Options} {block head body : Bytes} {keepAlive : Bool} {s t : Dispatching}
  {sys : Sys} {c : QueueConnectionElementType} {pc : Pc}

theorem InFlight.sends (h : InFlight options block head body keepAlive s) (accepted : Bytes)
    (hdelivering : Delivering block head body (wire s.2.effects ++ accepted) pc c.sending)
    (hkeepAlive : c.keepAlive = s.connection.keepAlive) (hreanswerable : Reanswerable options c)
    (hunsent : Unsent head body c ∨ c.state = .done)
    (hcalls : s.asked = none → pc = .sendHeaders ∨ pc = .sendBody)
    (htransfers : Transfers s sys → accepted ≠ []) :
    Sends options block head body keepAlive s sys
      (s.2.continue s.1 c pc (effectOf .sent accepted)) := by
  have hwire : wire (s.2.continue s.1 c pc (effectOf .sent accepted)).2.effects =
      wire s.2.effects ++ accepted := by
    show wire (s.2.effects ++ effectOf .sent accepted) = _
    rw [wire_append, wire_effectOf_sent]
  refine ⟨⟨?_, ?_, ?_, ?_, h.queued⟩, ?_, fun hasked => ?_, ?_, fun htransfer => ?_⟩
  · rw [hwire, connection_continue]
    exact hdelivering
  · rw [connection_continue, hkeepAlive]
    exact h.keepAlive
  · rwa [connection_continue]
  · intro effect heffect
    rcases List.mem_append.mp heffect with heffect | heffect
    · exact h.transfers effect heffect
    · unfold effectOf at heffect
      split at heffect
      · cases heffect
      · obtain rfl := List.mem_singleton.mp heffect
        exact trivial
  · rwa [connection_continue]
  · unfold Dispatching.asked
    rw [pc_continue]
    rcases hcalls hasked with hpc | hpc <;> rw [hpc] <;> rfl
  · rw [hwire, List.length_append]
    exact Nat.le_add_right _ _
  · rw [hwire, List.length_append]
    exact Nat.lt_add_of_pos_right (List.length_pos_of_ne_nil (htransfers htransfer))

theorem Reanswerable.congr {c' : QueueConnectionElementType} (h : Reanswerable options c)
    (hheaders : c'.requestHeaders = c.requestHeaders)
    (hbuffer : c'.requestBuffer = c.requestBuffer) : Reanswerable options c' := by
  unfold Reanswerable at h ⊢
  rw [hheaders]
  exact h.imp_right fun hon env hpeer => (hon env hpeer).congr hbuffer

/-- A turn of `sendResponseHeaders` with a part of the header to send. -/
theorem sendResponseHeadersTurn_soft (hstate : c.state = .sendHeaders)
    (hheaders : c.responseBufferHeaders = some head)
    (hlength : c.responseBufferHeadersLength = head.length)
    (hlt : c.responseBufferHeadersOffset < head.length) (hhead : head.length < 1024)
    {r : SendResult} (hr : r.Soft (sizeSub head.length c.responseBufferHeadersOffset)) :
    ∃ turn, sendResponseHeadersTurn c r = some turn ∧
      (turn.connection.state = .sendHeaders ∧
          turn.connection.responseBufferHeadersOffset < head.length ∨
        turn.connection.state = .sendBody ∧ turn.connection.bodyOffset = c.bodyOffset) ∧
      ((∃ count, r = .sent count) → turn.accepted ≠ []) := by
  have hasked : sizeSub head.length c.responseBufferHeadersOffset =
      head.length - c.responseBufferHeadersOffset := sizeSub_of_le hlt.le (by omega)
  unfold sendResponseHeadersTurn
  rw [hheaders, hlength]
  simp only [Option.bind_eq_bind, Option.bind_some, hasked] at hr ⊢
  cases r with
  | error => exact hr.elim
  | eintr => exact ⟨_, rfl, Or.inl ⟨hstate, hlt⟩, fun hsent => nomatch hsent⟩
  | eagain =>
    simp only [if_neg hlt.ne]
    exact ⟨_, rfl, Or.inl ⟨hstate, hlt⟩, fun hsent => nomatch hsent⟩
  | sent count =>
    have hpos : 0 < count := hr (by omega)
    have hmin := Nat.min_le_right count (head.length - c.responseBufferHeadersOffset)
    have hne : min count (head.length - c.responseBufferHeadersOffset) ≠ 0 := by omega
    have haccepted : ((head.drop c.responseBufferHeadersOffset).take
        (min count (head.length - c.responseBufferHeadersOffset))) ≠ [] := by
      refine List.ne_nil_of_length_pos ?_
      rw [List.length_take, List.length_drop]
      omega
    simp only [if_neg (show ¬ head.length < c.responseBufferHeadersOffset +
      min count (head.length - c.responseBufferHeadersOffset) by omega), if_neg hne]
    split
    · exact ⟨_, rfl, Or.inr ⟨rfl, rfl⟩, fun _ => haccepted⟩
    · refine ⟨_, rfl, Or.inl ⟨hstate, ?_⟩, fun _ => haccepted⟩
      show c.responseBufferHeadersOffset +
        min count (head.length - c.responseBufferHeadersOffset) < head.length
      omega

theorem sendResponseFileTurn_soft (hstate : c.state = .sendBody)
    (hlength : c.bodyLength = body.length) (hlt : c.bodyOffset < body.length)
    (hbody : body.length < 2 ^ 63) {r : SendResult}
    (hr : r.Soft (sizeSub body.length c.bodyOffset)) :
    ((sendResponseFileTurn c body r).connection.state = .sendBody ∧
          (sendResponseFileTurn c body r).connection.bodyOffset < body.length ∨
        (sendResponseFileTurn c body r).connection.state = .done) ∧
      ((∃ count, r = .sent count) → (sendResponseFileTurn c body r).accepted ≠ []) := by
  have hasked : sizeSub body.length c.bodyOffset = body.length - c.bodyOffset :=
    sizeSub_of_le hlt.le (by omega)
  rw [hasked] at hr
  unfold sendResponseFileTurn
  rw [hlength, hasked]
  cases r with
  | error => exact hr.elim
  | eintr => exact ⟨Or.inl ⟨hstate, hlt⟩, fun hsent => nomatch hsent⟩
  | eagain =>
    simp only [if_neg hlt.ne]
    exact ⟨Or.inl ⟨hstate, hlt⟩, fun hsent => nomatch hsent⟩
  | sent count =>
    have hpos : 0 < count := hr (by omega)
    have hlen : ((body.drop c.bodyOffset).take (min count (body.length - c.bodyOffset))).length =
        min count (body.length - c.bodyOffset) := by
      rw [List.length_take, List.length_drop]
      omega
    have haccepted :
        (body.drop c.bodyOffset).take (min count (body.length - c.bodyOffset)) ≠ [] := by
      refine List.ne_nil_of_length_pos ?_
      rw [hlen]
      omega
    simp only [if_neg haccepted, hlen]
    split
    · exact ⟨Or.inr rfl, fun _ => haccepted⟩
    · rename_i hne
      refine ⟨Or.inl ⟨hstate, ?_⟩, fun _ => haccepted⟩
      have hne : c.bodyOffset + min count (body.length - c.bodyOffset) ≠ body.length := hne
      show c.bodyOffset + min count (body.length - c.bodyOffset) < body.length
      omega

/-- A step without a call, after which the loop goes on with the record. -/
theorem InFlight.goesOn (h : InFlight options block head body keepAlive s) (hasked : s.asked = none)
    (hdelivering : Delivering block head body (wire s.2.effects) pc c.sending)
    (hkeepAlive : c.keepAlive = s.connection.keepAlive) (hreanswerable : Reanswerable options c)
    (hunsent : Unsent head body c) (hpc : pc = .sendHeaders ∨ pc = .sendBody) :
    Sends options block head body keepAlive s sys (s.2.continue s.1 c pc []) := by
  refine h.sends [] ?_ hkeepAlive hreanswerable (Or.inl hunsent) (fun _ => hpc) fun htransfers => ?_
  · rwa [List.append_nil]
  · rw [Transfers, hasked] at htransfers
    exact absurd htransfers.1 (by simp)

theorem sendHeadersCase_sends (h : InFlight options block head body keepAlive s)
    (hpc : s.2.pc = .switch) (hstate : s.connection.state = .sendHeaders)
    (hlt : s.connection.responseBufferHeadersOffset < head.length)
    (hpeer : sys.request.peer.isSome) :
    ∃ t, s.2.sendHeadersCase options s.1 sys s.connection = some t ∧
      Sends options block head body keepAlive s sys t := by
  have hasked : s.asked = none := by
    unfold Dispatching.asked
    rw [hpc]
  -- what `sendResponseHeaders` is called with
  have hrespond : ∀ c : QueueConnectionElementType, c.sending = s.connection.sending →
      c.keepAlive = s.connection.keepAlive → Reanswerable options c →
      ∃ t, s.2.respond options s.1 sys c = some t ∧
        Sends options block head body keepAlive s sys t := by
    intro c hsending hkeepAlive hreanswerable
    have hbuilt : c.responseBufferHeaders = some head :=
      (congrArg Sending.responseBufferHeaders hsending).trans h.delivering.headers
    have hcstate : c.state = .sendHeaders := (congrArg Sending.state hsending).trans hstate
    have hoffset : c.responseBufferHeadersOffset = s.connection.responseBufferHeadersOffset :=
      congrArg Sending.responseBufferHeadersOffset hsending
    refine ⟨_, respond_built (by rw [hbuilt]; rfl), h.goesOn hasked ?_ hkeepAlive hreanswerable ?_
      (Or.inl rfl)⟩
    · have hp := h.delivering.progress
      rw [show s.connection.sending.state = .sendHeaders from hstate] at hp
      rw [hsending, hp.2.2.2]
      exact delivering_headers hstate h.delivering h.delivering.headersOffset (Or.inr rfl)
    · unfold Unsent
      rw [hcstate, hoffset]
      exact hlt
  by_cases hnil : s.connection.requestHeaders = []
  · have hon := h.reanswerable.resolve_left (not_not_intro hnil)
    obtain ⟨c', hparse, hprotocol, hhello⟩ := hon sys.request hpeer
    have hnot := not_refused hprotocol hhello
    rw [sendHeadersCase_goesOn hnil hparse hnot]
    have hsending := processRequest_sending hparse
    obtain ⟨_, _, _, _, _, _, _, _, hwritten⟩ := processRequest_inv hparse
    refine hrespond c' hsending (by rw [hwritten]) (Or.inr fun env hpeer => ?_)
    exact (hon env hpeer).congr (congrArg Sending.requestBuffer hsending)
  · rw [sendHeadersCase_processed hnil]
    exact hrespond s.connection rfl rfl h.reanswerable

/-- **What a step does** while the response is sent, for a body that is not empty. -/
theorem inFlight_step (hhead : head.length < 1024) (hbody : body.length < 2 ^ 63)
    (hne : body ≠ []) (hsoft : StepsSoftly body s sys)
    (h : InFlight options block head body keepAlive s) (hunsent : Unsent head body s.connection) :
    ∃ t, loopNext options s sys = some t ∧ Sends options block head body keepAlive s sys t := by
  have hp := h.delivering.progress
  unfold Unsent at hunsent
  rcases h.delivering.pc_cases with hpc | ⟨hpc, hstate⟩ | ⟨hpc, hstate⟩
  · have hasked : s.asked = none := by
      unfold Dispatching.asked
      rw [hpc]
    cases hstate : s.connection.state with
    | recv => simp [hstate] at hunsent
    | done => simp [hstate] at hunsent
    | doneForClose => simp [hstate] at hunsent
    | sendHeaders =>
      rw [hstate] at hunsent
      rw [loopNext_sendHeaders_switch hpc hstate]
      exact sendHeadersCase_sends h hpc hstate hunsent hsoft.peer
    | sendBody =>
      rw [show s.connection.sending.state = .sendBody from hstate] at hp
      rw [hstate] at hunsent
      refine ⟨_, loopNext_sendBody_switch hpc hstate hp.2.1 sys,
        h.goesOn hasked ?_ rfl h.reanswerable ?_ (Or.inr rfl)⟩
      · rw [hp.2.2]
        exact delivering_body hstate h.delivering h.delivering.bodyOffset (Or.inr rfl)
      · unfold Unsent
        rw [hstate]
        exact hunsent
  · have hstate : s.connection.state = .sendHeaders := hstate
    rw [show s.connection.sending.state = .sendHeaders from hstate] at hp
    rw [hstate] at hunsent
    have hlength : s.connection.responseBufferHeadersLength = head.length :=
      h.delivering.headersLength
    have hasked : s.asked =
        some (sizeSub head.length s.connection.responseBufferHeadersOffset) := by
      unfold Dispatching.asked
      rw [hpc, hlength]
    obtain ⟨turn, hturn, hcases, haccepted⟩ := sendResponseHeadersTurn_soft hstate
      h.delivering.headers hlength hunsent hhead (hsoft.send _ hasked)
    obtain ⟨offset, state, -, hwritten⟩ := sendResponseHeadersTurn_inv hturn
    refine ⟨s.2.continue s.1 turn.connection (if turn.repeats then .sendHeaders else .switch)
      (effectOf .sent turn.accepted), ?_, h.sends turn.accepted
      (sendResponseHeadersTurn_delivering hhead hstate h.delivering hturn) (by rw [hwritten])
      (h.reanswerable.congr (by rw [hwritten]) (by rw [hwritten])) (Or.inl ?_)
      (fun hnone => nomatch hasked.symm.trans hnone) fun htransfers => haccepted htransfers.2⟩
    · rw [loopNext_sendHeaders hpc, hturn]
      rfl
    · unfold Unsent
      rcases hcases with ⟨hstate', hlt⟩ | ⟨hstate', hoffset⟩
      · rw [hstate']
        exact hlt
      · have hzero : s.connection.bodyOffset = 0 := hp.2.1
        rw [hstate', hoffset, hzero]
        exact List.length_pos_of_ne_nil hne
  · have hstate : s.connection.state = .sendBody := hstate
    rw [hstate] at hunsent
    have hlength : s.connection.bodyLength = body.length := h.delivering.bodyLength
    have hasked : s.asked = some (sizeSub body.length s.connection.bodyOffset) := by
      unfold Dispatching.asked
      rw [hpc, hlength]
    obtain ⟨hcases, haccepted⟩ := sendResponseFileTurn_soft hstate hlength hunsent hbody
      (hsoft.send _ hasked)
    obtain ⟨offset, fd, state, -, hwritten⟩ := sendResponseFileTurn_inv s.connection body sys.send
    refine ⟨s.2.continue s.1 (sendResponseFileTurn s.connection body sys.send).connection
      (if (sendResponseFileTurn s.connection body sys.send).repeats then .sendBody else .switch)
      (effectOf .sent (sendResponseFileTurn s.connection body sys.send).accepted), ?_,
      h.sends _ (sendResponseFileTurn_delivering hbody hstate h.delivering sys.send)
      (by rw [hwritten]) (h.reanswerable.congr (by rw [hwritten]) (by rw [hwritten]))
      (hcases.imp_left fun hcase => ?_) (fun hnone => nomatch hasked.symm.trans hnone)
      fun htransfers => haccepted htransfers.2⟩
    · rw [loopNext_sendBody hpc, hsoft.bodyFile]
    · unfold Unsent
      rw [hcase.1]
      exact hcase.2

/-- The response is sent to its end. -/
theorem InFlight.reaches_done {script : ℕ → Sys} (hhead : head.length < 1024)
    (hbody : body.length < 2 ^ 63) (hne : body ≠ [])
    (h : InFlight options block head body keepAlive s) (hunsent : Unsent head body s.connection)
    (hwilling : Willing options body s script) :
    Reaches (loopNext options)
      (fun t => InFlight options block head body keepAlive t ∧ t.connection.state = .done) s
      script := by
  let left : Dispatching → ℕ := fun t => (head ++ body).length - (wire t.2.effects).length
  have hstep : ∀ s sys, StepsSoftly body s sys →
      InFlight options block head body keepAlive s ∧ Unsent head body s.connection →
      ∃ t, loopNext options s sys = some t ∧
        ((InFlight options block head body keepAlive t ∧ t.connection.state = .done) ∨
          (InFlight options block head body keepAlive t ∧ Unsent head body t.connection) ∧
            left t ≤ left s ∧ (Transfers s sys → left t < left s)) := by
    intro s sys hsoft hinv
    obtain ⟨t, hnext, hsends⟩ := inFlight_step hhead hbody hne hsoft hinv.1 hinv.2
    refine ⟨t, hnext, hsends.unsent.symm.imp (fun hdone => ⟨hsends.inFlight, hdone⟩)
      fun hunsent => ⟨⟨hsends.inFlight, hunsent⟩, ?_, fun htransfers => ?_⟩⟩
    · exact Nat.sub_le_sub_left hsends.grows _
    · have hle := hsends.inFlight.delivering.accepted.length_le
      have hgrows := hsends.transfers htransfers
      show (head ++ body).length - (wire t.2.effects).length <
        (head ++ body).length - (wire s.2.effects).length
      omega
  refine reaches_of_measure left hstep hwilling.soft (fun k t ht hinv => ?_) ⟨h, hunsent⟩
  by_cases hasked : t.asked.isSome
  · exact hwilling.progress k t ht hasked
  · -- the next step calls
    obtain ⟨u, hnext, hsends⟩ :=
      inFlight_step hhead hbody hne (hwilling.soft k t ht) hinv.1 hinv.2
    have hu : trace (loopNext options) s script (k + 1) = some u := by
      rw [trace, ht]
      exact hnext
    obtain ⟨i, v, hv, htransfers⟩ :=
      hwilling.progress (k + 1) u hu (hsends.calls (by simpa using hasked))
    exact ⟨1 + i, v, by rwa [← Nat.add_assoc], by rwa [← Nat.add_assoc]⟩

end Sending

/-! ### The end of the loop -/

section Ending

variable {options : Options} {block head body : Bytes} {keepAlive : Bool} {s t : Dispatching}
  {sys : Sys} {script : ℕ → Sys}

theorem not_mem_of_transfers {effects : List Effect} (h : ∀ effect ∈ effects, effect.IsTransfer)
    {effect : Effect} (heffect : ¬ effect.IsTransfer) : effect ∉ effects :=
  fun hmem => heffect (h effect hmem)

/-- The loop that has logged the request and then kept or closed the connection. -/
theorem endedAsAnnounced (h : InFlight options block head body keepAlive s)
    (hwire : wire s.2.effects = head ++ body)
    (hannounced : announced head =
      some (if keepAlive then bytes "keep-alive" else bytes "close"))
    (hended : t.2.pc = .ended)
    (heffects : t.2.effects = s.2.effects ++ [.logged, if keepAlive then .rearmed else .closed]) :
    EndedAsAnnounced head body t := by
  have hlogged : Effect.logged ∉ s.2.effects := not_mem_of_transfers h.transfers id
  have hrearmed : Effect.rearmed ∉ s.2.effects := not_mem_of_transfers h.transfers id
  have hclosed : Effect.closed ∉ s.2.effects := not_mem_of_transfers h.transfers id
  have hne : bytes "keep-alive" ≠ bytes "close" := by decide +kernel
  refine ⟨hended, ?_, ?_, ?_, ?_⟩
  · rw [heffects, wire_append, hwire]
    cases keepAlive <;> simp [wire]
  · rw [heffects, List.count_append, List.count_eq_zero.mpr hlogged]
    cases keepAlive <;> decide
  · rw [heffects, hannounced]
    cases keepAlive <;> simp [hrearmed, hne.symm]
  · rw [heffects, hannounced]
    cases keepAlive <;> simp [hclosed, hne]

theorem InFlight.ends (h : InFlight options block head body keepAlive s)
    (hdone : s.connection.state = .done)
    (hannounced : announced head =
      some (if keepAlive then bytes "keep-alive" else bytes "close")) :
    Reaches (loopNext options) (EndedAsAnnounced head body) s script := by
  have hp := h.delivering.progress
  rw [show s.connection.sending.state = .done from hdone] at hp
  obtain ⟨hpc, hwire⟩ := hp
  have hstep : loopNext options s (script 0) = s.2.doneCase s.1 (script 0) s.connection :=
    loopNext_done hpc hdone _
  cases hkeep : keepAlive with
  | true =>
    have hflag : s.connection.keepAlive = true := h.keepAlive.trans hkeep
    obtain ⟨q', hq'⟩ : ∃ q',
        updateQueueConnection s.1 s.2.clientFd (script 0).now (script 0).mem = some q' := by
      obtain ⟨index, hi⟩ := Option.isSome_iff_exists.mp h.queued
      unfold updateQueueConnection
      rw [hi]
      exact ⟨_, rfl⟩
    have hnext : loopNext options s (script 0) =
        some (q', s.2.goto .ended [.logged, .rearmed]) := by
      rw [hstep, EventLoop.doneCase, if_pos hflag, if_pos h.queued, hq']
      rfl
    refine reaches_of_next hnext ⟨0, _, rfl, endedAsAnnounced h hwire hannounced rfl ?_⟩
    rw [hkeep]
    rfl
  | false =>
    have hflag : s.connection.keepAlive = false := h.keepAlive.trans hkeep
    have hnext : loopNext options s (script 0) =
        some (s.2.logAndClose s.1 s.connection) := by
      rw [hstep, EventLoop.doneCase, if_neg (by simp [hflag])]
    -- `STATE_CONNECTION_DONE_FOR_CLOSE` follows
    have hclose : loopNext options (s.2.logAndClose s.1 s.connection) (script 1) =
        some (dequeueConnectionByFd (s.2.logAndClose s.1 s.connection).1 s.2.clientFd,
          (s.2.goto .switch [.logged]).goto .ended [.closed]) := by
      have hstate : Dispatching.connection (s.2.logAndClose s.1 s.connection) =
          { s.connection with state := .doneForClose } := connection_continue ..
      have hqueued : existsConnection (s.2.logAndClose s.1 s.connection).1
          s.2.clientFd := h.queued
      rw [loopNext_doneForClose rfl (by rw [hstate])]
      exact congrArg some (if_pos hqueued)
    refine reaches_of_next hnext (reaches_of_next hclose ⟨0, _, rfl,
      endedAsAnnounced h hwire hannounced rfl ?_⟩)
    rw [hkeep]
    show s.2.effects ++ [.logged] ++ [.closed] = _
    rw [List.append_assoc]
    rfl

end Ending

/-! ### Responses that are not seen through -/

/-- The loop does not come to `STATE_CONNECTION_DONE` any more. -/
def GivenUp (s : Dispatching) : Prop :=
  match s.2.pc with
  | .sendAll _ _ => True
  | .ended => True
  | .switch => s.connection.state = .doneForClose
  | _ => False

/-- A script whose first call has the given outcome, and all others transfer up to 1024 bytes. -/
def openedWith (first : SendResult) (env : RequestEnv) (body : Bytes) (k : ℕ) : Sys :=
  { localSys 0 with
    send := if k = 0 then first else .sent 1024
    request := env
    bodyFile := body }

section GivenUp

variable {options : Options} {env : RequestEnv} {block head body : Bytes} {keepAlive : Bool}
  {s t : Dispatching} {sys : Sys} {script : ℕ → Sys} {first : SendResult}

theorem GivenUp.not_atDone (h : GivenUp s) : ¬ AtDone s := by
  rintro ⟨hpc, hdone⟩
  unfold GivenUp at h
  rw [hpc] at h
  rw [show s.connection.state = .doneForClose from h] at hdone
  cases hdone

theorem givenUp_logAndClose (q : QueueConnectionsType) (e : EventLoop)
    (c : QueueConnectionElementType) : GivenUp (e.logAndClose q c) := by
  show (Dispatching.connection (e.logAndClose q c)).state = .doneForClose
  unfold EventLoop.logAndClose
  rw [connection_continue]

theorem givenUp_step (h : GivenUp s) (hnext : loopNext options s sys = some t) : GivenUp t := by
  unfold GivenUp at h
  cases hpc : s.2.pc with
  | recv => simp [hpc] at h
  | sendHeaders => simp [hpc] at h
  | sendBody => simp [hpc] at h
  | ended =>
    rw [loopNext_ended hpc] at hnext
    cases hnext
  | «switch» =>
    rw [hpc] at h
    rw [loopNext_doneForClose hpc h] at hnext
    obtain rfl := Option.some.inj hnext
    unfold GivenUp
    rw [closeCase_ended]
    exact trivial
  | sendAll buffer leftToWrite =>
    rcases loopNext_sendAll hpc hnext with rfl | ⟨leftToWrite', effects, rfl⟩
    · exact givenUp_logAndClose ..
    · exact trivial

theorem GivenUp.not_reaches (h : GivenUp s) : ¬ Reaches (loopNext options) AtDone s script :=
  not_reaches_of_invariant (fun _ h => h.not_atDone) (fun _ _ _ h hnext => givenUp_step h hnext) h

/-- Such a script fails nowhere, if its first call may have that outcome and a call that transfers
comes after it. -/
theorem willing_openedWith (hpeer : env.peer.isSome)
    (hfirst : ∀ asked, s.asked = some asked → first.Soft asked)
    (hlater : s.asked.isSome → ∃ i u,
      trace (loopNext options) s (openedWith first env body) i = some u ∧
        Transfers u (openedWith first env body i)) :
    Willing options body s (openedWith first env body) := by
  refine ⟨fun k t ht => ⟨hpeer, rfl, fun asked hasked => ?_⟩, fun k t ht hasked => ?_⟩
  · cases k with
    | zero =>
      obtain rfl := Option.some.inj ht
      exact hfirst asked hasked
    | succ k => exact fun _ => by decide
  · cases k with
    | zero =>
      obtain rfl := Option.some.inj ht
      simpa using hlater hasked
    | succ k => exact ⟨0, t, ht, hasked, 1024, rfl⟩

theorem sendResponseHeadersTurn_rest {c : QueueConnectionElementType}
    (hheaders : c.responseBufferHeaders = some head)
    (hlength : c.responseBufferHeadersLength = head.length)
    (hlt : c.responseBufferHeadersOffset < head.length) (hhead : head.length < 1024) :
    sendResponseHeadersTurn c (.sent 1024) = some
      ⟨{ c with state := .sendBody, responseBufferHeadersOffset := 0 },
        head.drop c.responseBufferHeadersOffset, false⟩ := by
  have hasked : sizeSub head.length c.responseBufferHeadersOffset =
      head.length - c.responseBufferHeadersOffset := sizeSub_of_le hlt.le (by omega)
  have hmin : min 1024 (head.length - c.responseBufferHeadersOffset) =
      head.length - c.responseBufferHeadersOffset := by omega
  have hsum : c.responseBufferHeadersOffset + (head.length - c.responseBufferHeadersOffset) =
      head.length := by omega
  have htake : (head.drop c.responseBufferHeadersOffset).take
      (head.length - c.responseBufferHeadersOffset) = head.drop c.responseBufferHeadersOffset :=
    List.take_of_length_le (by rw [List.length_drop])
  unfold sendResponseHeadersTurn
  simp only [hheaders, hlength, Option.bind_eq_bind, Option.bind_some, hasked, hmin, hsum, htake,
    lt_irrefl, if_false, if_true, if_neg (Nat.sub_ne_zero_of_lt hlt)]
  rfl

/-- **An empty file**: `sendfile` returns 0, and the connection is closed without
`STATE_CONNECTION_DONE`. -/
theorem not_reaches_of_empty (hhead : head.length < 1024)
    (h : Delivering block head [] (wire s.2.effects) .sendHeaders s.connection.sending)
    (hpc : s.2.pc = .sendHeaders) (hstate : s.connection.state = .sendHeaders)
    (hlt : s.connection.responseBufferHeadersOffset < head.length) (hpeer : env.peer.isSome) :
    Willing options [] s (openedWith (.sent 1024) env []) ∧
      ¬ Reaches (loopNext options) AtDone s (openedWith (.sent 1024) env []) := by
  have hp := h.progress
  rw [show s.connection.sending.state = .sendHeaders from hstate] at hp
  refine ⟨willing_openedWith hpeer (fun _ _ _ => by decide) fun hasked =>
    ⟨0, s, rfl, hasked, 1024, rfl⟩, fun hreaches => ?_⟩
  -- the whole header goes out
  let c₁ : QueueConnectionElementType :=
    { s.connection with state := .sendBody, responseBufferHeadersOffset := 0 }
  let s₁ : Dispatching := s.2.continue s.1 c₁ .switch
    (effectOf .sent (head.drop s.connection.responseBufferHeadersOffset))
  have h₁ : loopNext options s (openedWith (.sent 1024) env [] 0) = some s₁ := by
    rw [loopNext_sendHeaders hpc]
    show (sendResponseHeadersTurn s.connection (.sent 1024)).map _ = _
    rw [sendResponseHeadersTurn_rest h.headers h.headersLength hlt hhead]
    rfl
  have hc₁ : s₁.connection = c₁ := connection_continue ..
  -- `sendResponseFile` is called, and has nothing to send
  let s₂ : Dispatching := s₁.2.continue s₁.1 c₁ .sendBody []
  have h₂ : loopNext options s₁ (openedWith (.sent 1024) env [] 1) = some s₂ := by
    rw [loopNext_sendBody_switch rfl (by rw [hc₁]) (by rw [hc₁]; exact hp.2.2.1), hc₁]
  have hc₂ : s₂.connection = c₁ := connection_continue ..
  let s₃ : Dispatching := s₂.2.continue s₂.1 { c₁ with state := .doneForClose } .switch []
  have h₃ : loopNext options s₂ (openedWith (.sent 1024) env [] 2) = some s₃ := by
    have hturn : sendResponseFileTurn c₁ (openedWith (.sent 1024) env [] 2).bodyFile
        (openedWith (.sent 1024) env [] 2).send =
          ⟨{ c₁ with state := .doneForClose }, [], false⟩ := by
      simp [openedWith, sendResponseFileTurn]
    rw [loopNext_sendBody rfl, hc₂, hturn]
    rfl
  have hgivenUp : GivenUp s₃ := by
    show s₃.connection.state = .doneForClose
    rw [show s₃.connection = _ from connection_continue ..]
  have hnot : ¬ AtDone s := fun hdone => by
    rw [AtDone, hpc] at hdone
    cases hdone.1
  have hnot₁ : ¬ AtDone s₁ := fun hdone => by
    rw [AtDone, hc₁] at hdone
    cases hdone.2
  have hnot₂ : ¬ AtDone s₂ := fun hdone => by
    rw [AtDone, hc₂] at hdone
    cases hdone.2
  exact hgivenUp.not_reaches
    (((hreaches.of_next hnot h₁).of_next hnot₁ h₂).of_next hnot₂ h₃)

/-- **A request that is refused when it is processed again**, since the socket did not take the
header at once: a fixed response follows, and the connection is closed without
`STATE_CONNECTION_DONE`. -/
theorem not_reaches_of_refused {valid : Bool} {c' : QueueConnectionElementType}
    (h : Delivering block head body (wire s.2.effects) .sendHeaders s.connection.sending)
    (hpc : s.2.pc = .sendHeaders) (hstate : s.connection.state = .sendHeaders)
    (hlt : s.connection.responseBufferHeadersOffset < head.length) (hhead : head.length < 1024)
    (hnil : s.connection.requestHeaders = []) (hpeer : env.peer.isSome)
    (hparse : processRequest options env s.connection = some (valid, c'))
    (hrefused : Refused valid c') :
    Willing options body s (openedWith .eagain env body) ∧
      ¬ Reaches (loopNext options) AtDone s (openedWith .eagain env body) := by
  have hlength : s.connection.responseBufferHeadersLength = head.length := h.headersLength
  -- the socket takes nothing of the header
  let s₁ : Dispatching := s.2.continue s.1 s.connection .switch []
  have h₁ : loopNext options s (openedWith .eagain env body 0) = some s₁ := by
    refine loopNext_sendHeaders_left hpc rfl (Option.isSome_iff_exists.mpr ⟨head, h.headers⟩) ?_
    rw [hlength]
    exact hlt.ne
  have hc₁ : s₁.connection = s.connection := connection_continue ..
  -- the request is processed again, and refused
  have hrequest : processRequest options (openedWith .eagain env body 1).request s.connection =
      some (valid, c') := hparse
  obtain ⟨buffer, hbuffer, hcase⟩ :=
    sendHeadersCase_refused (q := s₁.1) (e := s₁.2) hnil hrequest hrefused
  let s₂ : Dispatching := s₁.2.answer s₁.1 c' buffer
  have h₂ : loopNext options s₁ (openedWith .eagain env body 1) = some s₂ := by
    rw [loopNext_sendHeaders_switch rfl (by rw [hc₁]; exact hstate), hc₁]
    exact hcase
  have htrace : trace (loopNext options) s (openedWith .eagain env body) 2 = some s₂ := by
    rw [trace, trace, trace, Option.bind_some, h₁, Option.bind_some, h₂]
  have hasked : s₂.asked = some buffer.length := by
    have hne : buffer.length ≠ 0 := fun hzero => hbuffer (List.length_eq_zero_iff.mp hzero)
    show (if buffer.length = 0 then none else some buffer.length) = _
    rw [if_neg hne]
  refine ⟨willing_openedWith hpeer (fun asked hs => ?_) fun _ =>
    ⟨2, s₂, htrace, by rw [hasked]; rfl, 1024, rfl⟩, fun hreaches => ?_⟩
  · have hsome : s.asked =
        some (sizeSub head.length s.connection.responseBufferHeadersOffset) := by
      unfold Dispatching.asked
      rw [hpc, hlength]
    obtain rfl := Option.some.inj (hs.symm.trans hsome)
    show 0 < sizeSub head.length s.connection.responseBufferHeadersOffset
    rw [sizeSub_of_le hlt.le (by omega)]
    omega
  · have hnot : ¬ AtDone s := fun hdone => by
      rw [AtDone, hpc] at hdone
      cases hdone.1
    have hnot₁ : ¬ AtDone s₁ := fun hdone => by
      rw [AtDone, hc₁, hstate] at hdone
      cases hdone.2
    have hgivenUp : GivenUp s₂ := trivial
    exact hgivenUp.not_reaches ((hreaches.of_next hnot h₁).of_next hnot₁ h₂)

end GivenUp

/-! ### The announced fate -/

/-- The response of `makeResponse` to a request, about to be sent by a loop that has only received
so far, on a connection that is in the queue. -/
structure Responding (options : Options) (block : Bytes) (built : Built) (s : Dispatching) :
    Prop where
  request : ∃ env response disk c₀ c₁, c₀.requestBuffer = some block ∧
    c₀.state = .sendHeaders ∧ processRequest options env c₀ = some (true, c₁) ∧
    supportedProtocol c₁.protocolVersion ∧ ¬ isHello c₁.path ∧
    makeResponse options response disk c₁ = some built
  connection : s.connection = built.connection
  pc : s.2.pc = .sendHeaders
  received : ∀ effect ∈ s.2.effects, ∃ bytes, effect = .received bytes
  queued : existsConnection s.1 s.2.clientFd

section Fate

variable {options : Options} {block : Bytes} {built : Built} {s : Dispatching}

theorem wire_received {effects : List Effect}
    (h : ∀ effect ∈ effects, ∃ bytes, effect = .received bytes) : wire effects = [] := by
  refine List.flatMap_eq_nil_iff.mpr fun effect heffect => ?_
  obtain ⟨bytes, rfl⟩ := h effect heffect
  rfl

theorem Responding.start (h : Responding options block built s) :
    ∃ head, built.connection.responseBufferHeaders = some head ∧ head.length < 1024 ∧
      built.body.length < 2 ^ 63 ∧ built.connection.state = .sendHeaders ∧
      built.connection.responseBufferHeadersOffset < head.length ∧
      announced head = some (if built.connection.keepAlive then bytes "keep-alive"
        else bytes "close") ∧
      (∃ env, GoesOn options env built.connection) ∧
      Delivering block head built.body (wire s.2.effects) .sendHeaders s.connection.sending := by
  obtain ⟨env, response, disk, c₀, c₁, hblock, hstate, hparse, hprotocol, hhello, hmake⟩ :=
    h.request
  obtain ⟨head, bodyFd, hhead, hbody, hsending⟩ :=
    makeResponse_sending (supportedProtocol_length hprotocol) hmake
  have hsending₁ := processRequest_sending hparse
  have hheaders : built.connection.responseBufferHeaders = some head :=
    congrArg Sending.responseBufferHeaders hsending
  have hstate' : built.connection.state = .sendHeaders :=
    (congrArg Sending.state hsending).trans ((congrArg Sending.state hsending₁).trans hstate)
  have hoffset : built.connection.responseBufferHeadersOffset = 0 :=
    congrArg Sending.responseBufferHeadersOffset hsending
  have hlength : built.connection.responseBufferHeadersLength = head.length :=
    congrArg Sending.responseBufferHeadersLength hsending
  obtain ⟨-, hunsent, -, hbuffer⟩ := makeResponse_unsent hmake
  rw [hoffset, hlength] at hunsent
  have hon₀ : GoesOn options env c₀ := ⟨c₁, hparse, hprotocol, hhello⟩
  have hon : GoesOn options env c₁ := hon₀.congr (congrArg Sending.requestBuffer hsending₁)
  refine ⟨head, hheaders, hhead, hbody, hstate', ?_,
    makeResponse_announced hprotocol hmake hheaders, ⟨env, hon.congr hbuffer⟩, ?_⟩
  · rw [hoffset]
    exact Nat.pos_of_ne_zero hunsent.symm
  · rw [h.connection, hsending, hsending₁, wire_received h.received]
    refine ⟨hblock, rfl, rfl, Nat.zero_le _, rfl, Nat.zero_le _, ?_⟩
    simp only [show c₀.sending.state = .sendHeaders from hstate]
    refine ⟨Or.inr trivial, trivial, ?_, List.take_zero.symm⟩
    simp

/-- **Announced and actual fate agree** on every script in which nothing fails hard, for a response
of `makeResponse`, exactly if its body is not empty and the request has header nodes or three tokens
on its first line. -/
theorem announcedFate_iff (h : Responding options block built s) :
    ∃ head, built.connection.responseBufferHeaders = some head ∧
      ((∀ script, Willing options built.body s script →
          AgreedFate options head built.body s script) ↔
        built.body ≠ [] ∧
          (built.connection.requestHeaders ≠ [] ∨ (requestLineTokens block).length = 3)) := by
  obtain ⟨head, hheaders, hhead, hbody, hstate, hlt, hannounced, ⟨env, hon⟩, hdelivering⟩ :=
    h.start
  have hbuffer : built.connection.requestBuffer = some block := by
    rw [← h.connection]
    exact hdelivering.requestBuffer
  rw [← h.connection] at hstate hlt hon hbuffer ⊢
  refine ⟨head, hdelivering.headers, fun hall => ?_, fun hcond script hwilling => ?_⟩
  · by_contra hcond
    rw [not_and_or, not_not, not_or, not_not] at hcond
    rcases hcond with hempty | ⟨hnil, hshort⟩
    · rw [hempty] at hdelivering hall
      obtain ⟨hwilling, hnot⟩ :=
        not_reaches_of_empty hhead hdelivering h.pc hstate hlt
          (show localEnv.peer.isSome from rfl)
      exact hnot (hall _ hwilling).done
    · obtain ⟨valid, c', hparse, hrefused⟩ := refused_of_short hbuffer hon hshort
      obtain ⟨hwilling, hnot⟩ :=
        not_reaches_of_refused hdelivering h.pc hstate hlt hhead hnil rfl hparse hrefused
      exact hnot (hall _ hwilling).done
  · have hinFlight : InFlight options block head built.body built.connection.keepAlive s := by
      refine ⟨?_, by rw [h.connection], ?_, fun effect heffect => ?_, h.queued⟩
      · rw [h.pc]
        exact hdelivering
      · exact hcond.2.imp_right fun hthree env' hpeer => goesOn_of_three hbuffer hon hthree hpeer
      · obtain ⟨bytes, rfl⟩ := h.received effect heffect
        exact trivial
    have hunsent : Unsent head built.body s.connection := by
      unfold Unsent
      rw [hstate]
      exact hlt
    have hreaches := hinFlight.reaches_done hhead hbody hcond.1 hunsent hwilling
    obtain ⟨k, t, ht, hinFlight', hdone⟩ := hreaches
    refine ⟨⟨k, t, ht, ?_, hdone⟩, reaches_of_trace ht (hinFlight'.ends hdone hannounced)⟩
    have hp := hinFlight'.delivering.progress
    rw [show t.connection.sending.state = .done from hdone] at hp
    exact hp.1

end Fate

/-- The loop for client 5 with a response just built. -/
def responseStart (built : Built) : Dispatching :=
  .responding (enqueueConnection createQueueConnections (freshConnection 5 100 .zeroed))
    (.start 5 0) built.connection

/-- A site whose index page is empty. -/
def emptyDisk : Disk := { wwwDisk with file := fun _ => .ok ⟨[], 7, 7⟩ }

def emptyPageBuilt : Built :=
  (makeResponse wwwOptions localResponseEnv emptyDisk indexPageParsed).get (by decide +kernel)

theorem responding_indexPage {disk : Disk} {built : Built}
    (hmake : makeResponse wwwOptions localResponseEnv disk indexPageParsed = some built) :
    Responding wwwOptions (indexPageRequest ++ [0]) built (responseStart built) := by
  have hparse : processRequest wwwOptions localEnv indexPageConnection =
      some (true, indexPageParsed) := by decide +kernel
  refine ⟨⟨localEnv, localResponseEnv, disk, indexPageConnection, indexPageParsed, rfl, rfl,
    hparse, by decide +kernel, by decide +kernel, hmake⟩, ?_, rfl, nofun, ?_⟩
  · simp [responseStart, Dispatching.responding, Dispatching.connection, setConnection]
  · show existsConnection
      (enqueueConnection createQueueConnections (freshConnection 5 100 .zeroed)) 5
    decide +kernel

/-- The empty index page is announced with `keep-alive`, and the connection is closed unlogged. -/
theorem not_agreedFate_emptyPage :
    ¬ ∀ (options : Options) (block head : Bytes) (built : Built) (s : Dispatching)
      (script : ℕ → Sys), Responding options block built s →
        built.connection.responseBufferHeaders = some head →
          Willing options built.body s script → AgreedFate options head built.body s script := by
  intro hall
  have hresponding : Responding wwwOptions (indexPageRequest ++ [0]) emptyPageBuilt
      (responseStart emptyPageBuilt) := responding_indexPage (Option.some_get _).symm
  obtain ⟨head, hheaders, hhead, -, hstate, hlt, -, -, hdelivering⟩ := hresponding.start
  have hempty : emptyPageBuilt.body = [] := by decide +kernel
  rw [← hresponding.connection] at hstate hlt
  rw [hempty] at hdelivering
  obtain ⟨hwilling, hnot⟩ :=
    not_reaches_of_empty hhead hdelivering
    hresponding.pc hstate hlt (show localEnv.peer.isSome from rfl)
  rw [← hempty] at hwilling hnot
  exact hnot (hall _ _ _ _ _ _ hresponding hheaders hwilling).done

/-- The index page is delivered and the connection kept, as announced. -/
theorem announcedFate_indexPage :
    ∃ head, indexPageBuilt.connection.responseBufferHeaders = some head ∧
      ∀ script, Willing wwwOptions indexPageBuilt.body (responseStart indexPageBuilt) script →
        AgreedFate wwwOptions head indexPageBuilt.body (responseStart indexPageBuilt) script := by
  obtain ⟨head, hheaders, hiff⟩ :=
    announcedFate_iff (responding_indexPage (Option.some_get _).symm)
  exact ⟨head, hheaders, hiff.mpr ⟨by decide +kernel, Or.inr (by decide +kernel)⟩⟩

end UbServer

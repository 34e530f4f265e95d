import UbServer.Request
import UbServer.Lib.Runs

/-!
# Segmentation of a request stream

What one keep-alive connection makes of the bytes of its client: `recvRequest` turn by turn,
`processRequest` when a request is complete, and the fresh record that `updateQueueConnection` puts
in its place afterwards. Every request buffer starts filled with zeros.

* `Reader.next`: one call of `recv`.
* `CompleteRequest`: a request as the client sends it.
* `segmentationIndependent_iff`: all cuts of a stream of complete requests give the same requests
  exactly when nothing follows the first blank line.
-/

namespace UbServer

open CString Runs

/-- What `processRequest` found out about a request. -/
structure ParsedRequest where
  method : Method
  path : Option Bytes
  protocolVersion : Bytes
  requestHeaders : List Header
  requestBody : Option Bytes
  deriving DecidableEq

def QueueConnectionElementType.parsedRequest (connection : QueueConnectionElementType) :
    ParsedRequest where
  method := connection.method
  path := connection.path
  protocolVersion := connection.protocolVersion
  requestHeaders := connection.requestHeaders
  requestBody := connection.requestBody

/-- The request is valid, gets a response, and the connection stays open after it. -/
def ParsedRequest.Persistent (valid : Bool) (request : ParsedRequest) : Prop :=
  valid ∧ supportedProtocol request.protocolVersion ∧ ¬ isHello request.path ∧
    asksKeepAlive request.requestHeaders

instance (valid : Bool) (request : ParsedRequest) : Decidable (request.Persistent valid) :=
  inferInstanceAs (Decidable (_ ∧ _))

/-! ### Reading a connection -/

/-- The reading side of a connection: its record as long as it is read, and the requests parsed so
far, each with the value `processRequest` returned. A `none` stands for undefined behaviour. -/
structure Reader where
  connection : Option QueueConnectionElementType
  requests : List (Option (Bool × ParsedRequest))

/-- What one call of `recv` returns, and the time at which a request it completes is done. -/
structure RecvCall where
  result : RecvResult
  now : ℤ

/-- The bytes a call hands over. -/
def RecvCall.bytes (call : RecvCall) : Bytes :=
  match call.result with
  | .data bytes => bytes
  | _ => []

/-- The calls may return a non-empty piece no longer than asked for, or be interrupted, or find
nothing. -/
def RecvResult.Cuts (space : ℕ) : RecvResult → Prop
  | .data bytes => bytes ≠ [] ∧ bytes.length ≤ space
  | .eintr => True
  | .eagain => True
  | .error => False

instance (space : ℕ) (r : RecvResult) : Decidable (r.Cuts space) := by
  cases r <;> unfold RecvResult.Cuts <;> infer_instance

section Reading

variable (options : Options) (env : RequestEnv)

/-- The reader after the turn of `recvRequest` that left `connection`. -/
def Reader.turned (reader : Reader) (now : ℤ) (connection : QueueConnectionElementType) : Reader :=
  match connection.state with
  | .recv => { reader with connection := some connection }
  | .sendHeaders =>
    match processRequest options env connection with
    | none => ⟨none, reader.requests ++ [none]⟩
    | some (valid, parsed) =>
      let request := parsed.parsedRequest
      { connection := if request.Persistent valid then
          some (freshConnection connection.clientFd now .zeroed) else none
        requests := reader.requests ++ [some (valid, request)] }
  | _ => { reader with connection := none }

/-- One call of `recv` on the connection; `none` if the call cannot return that. A connection that
is no longer read leaves the bytes where they are. -/
def Reader.next (reader : Reader) (call : RecvCall) : Option Reader :=
  match reader.connection with
  | none => some reader
  | some connection =>
    if call.result.Cuts (connection.requestBufferLength - connection.requestBufferOffset) then
      match recvRequestTurn connection call.result with
      | none => some ⟨none, reader.requests ++ [none]⟩
      | some (connection, _) => some (reader.turned options env call.now connection)
    else none

end Reading

/-- The stream that a list of calls cuts. -/
def streamOf (calls : List RecvCall) : Bytes := (calls.map RecvCall.bytes).flatten

/-- A connection just accepted for a descriptor. -/
def Reader.start (fd : ℕ) (now : ℤ) : Reader := ⟨some (freshConnection fd now .zeroed), []⟩

/-- **Segmentation independence.** Any two ways of cutting the stream give the same requests. -/
def SegmentationIndependent (options : Options) (env : RequestEnv) (fd : ℕ) (now : ℤ)
    (stream : Bytes) : Prop :=
  ∀ calls₁ calls₂ reader₁ reader₂, streamOf calls₁ = stream → streamOf calls₂ = stream →
    exec (Reader.next options env) (.start fd now) calls₁ = some reader₁ →
    exec (Reader.next options env) (.start fd now) calls₂ = some reader₂ →
    reader₁.requests = reader₂.requests

/-! ### The record while a request is received -/

/-- The record when the bytes `got` of a request have been received. -/
def receiving (fd : ℕ) (now : ℤ) (got : Bytes) : QueueConnectionElementType :=
  { freshConnection fd now .zeroed with
    requestBuffer := some (got ++ List.replicate (bufferRequestSize - got.length) 0)
    requestBufferOffset := got.length }

/-- The record when the request `got` is complete. -/
def received (fd : ℕ) (now : ℤ) (got : Bytes) : QueueConnectionElementType :=
  { receiving fd now got with
    state := .sendHeaders
    requestBufferOffset := 0 }

section Buffer

variable {got bytes : Bytes}

theorem cString_padded (h : (0 : UInt8) ∉ got) (n : ℕ) :
    cString (got ++ List.replicate n 0) = got := by
  cases n with
  | zero => simpa using cString_of_not_mem h
  | succ n => exact cString_append_nul h _

theorem isRequestComplete_padded (h : (0 : UInt8) ∉ got) (n : ℕ) :
    isRequestComplete (got ++ List.replicate n 0) =
      if (strstr crlfcrlf got).isSome then some true else if n = 0 then none else some false := by
  unfold isRequestComplete
  rw [cString_padded h]
  cases n with
  | zero => simp [h]
  | succ n => simp

theorem writeAt_padded (h : (got ++ bytes).length ≤ bufferRequestSize) :
    writeAt (got ++ List.replicate (bufferRequestSize - got.length) 0) got.length bytes =
      (got ++ bytes) ++ List.replicate (bufferRequestSize - (got ++ bytes).length) 0 := by
  have hsplit : List.replicate (bufferRequestSize - got.length) (0 : UInt8) =
      List.replicate bytes.length 0 ++
        List.replicate (bufferRequestSize - (got ++ bytes).length) 0 := by
    rw [List.replicate_append_replicate]
    congr 1
    rw [List.length_append] at *
    omega
  rw [hsplit, writeAt_append _ _ _ _ (List.length_replicate ..), List.append_assoc]

theorem writeAt_nul_padded (h : got.length < bufferRequestSize) :
    writeAt (got ++ List.replicate (bufferRequestSize - got.length) 0) got.length [0] =
      got ++ List.replicate (bufferRequestSize - got.length) 0 := by
  obtain ⟨n, hn⟩ := Nat.exists_eq_succ_of_ne_zero (Nat.sub_ne_zero_of_lt h)
  rw [hn, List.replicate_succ]
  exact writeAt_append got [0] [0] _ rfl

end Buffer

section Turn

variable {fd : ℕ} {now : ℤ} {got bytes : Bytes}

theorem finishRequest_receiving (hgot : got.length ≤ bufferRequestSize) :
    finishRequest (receiving fd now got)
        (got ++ List.replicate (bufferRequestSize - got.length) 0) =
      if got.length = bufferRequestSize then none else some (received fd now got) := by
  unfold finishRequest
  have hlen : (got ++ List.replicate (bufferRequestSize - got.length) (0 : UInt8)).length =
      bufferRequestSize := by
    rw [List.length_append, List.length_replicate]
    omega
  rw [hlen, show (receiving fd now got).requestBufferOffset = got.length from rfl]
  split
  · rename_i hlt
    rw [if_neg hlt.ne, writeAt_nul_padded hlt]
    rfl
  · rw [if_pos (by omega)]

/-- A turn that receives bytes: either the buffer is full and has no place for the NUL, or the
request is complete, or the loop goes on. -/
theorem recvRequestTurn_data (hnul : (0 : UInt8) ∉ got ++ bytes) (hne : bytes ≠ [])
    (hfit : bytes.length ≤ bufferRequestSize - got.length) (hgot : got.length < bufferRequestSize) :
    recvRequestTurn (receiving fd now got) (.data bytes) =
      if (got ++ bytes).length = bufferRequestSize then none
      else if (strstr crlfcrlf (got ++ bytes)).isSome then
        some (received fd now (got ++ bytes), false)
      else some (receiving fd now (got ++ bytes), true) := by
  have hle : (got ++ bytes).length ≤ bufferRequestSize := by
    rw [List.length_append]
    omega
  have htake : bytes.take (bufferRequestSize - got.length) = bytes := List.take_of_length_le hfit
  have hturn : recvRequestTurn (receiving fd now got) (.data bytes) =
      (isRequestComplete ((got ++ bytes) ++
          List.replicate (bufferRequestSize - (got ++ bytes).length) 0)).bind fun complete =>
        if complete then
          (finishRequest (receiving fd now (got ++ bytes)) ((got ++ bytes) ++
            List.replicate (bufferRequestSize - (got ++ bytes).length) 0)).bind
              fun connection => some (connection, false)
        else some (receiving fd now (got ++ bytes), true) := by
    unfold recvRequestTurn
    simp only [receiving, freshConnection, Option.bind_eq_bind, Option.bind_some, htake, if_neg hne,
      writeAt_padded hle, List.length_append]
    rfl
  rw [hturn, isRequestComplete_padded hnul, finishRequest_receiving hle]
  by_cases hfull : (got ++ bytes).length = bufferRequestSize
  · rw [if_pos hfull, if_pos hfull, hfull, Nat.sub_self]
    split <;> rfl
  · rw [if_neg hfull, if_neg hfull]
    have hroom : bufferRequestSize - (got ++ bytes).length ≠ 0 := by omega
    rw [if_neg hroom]
    split <;> rfl

theorem recvRequestTurn_eagain (hnul : (0 : UInt8) ∉ got) (hgot : got.length < bufferRequestSize)
    (hopen : strstr crlfcrlf got = none) :
    recvRequestTurn (receiving fd now got) .eagain = some (receiving fd now got, false) := by
  have hcomplete := isRequestComplete_padded hnul (bufferRequestSize - got.length)
  rw [hopen, if_neg (by simp), if_neg (by omega)] at hcomplete
  unfold recvRequestTurn
  simp only [receiving, Option.bind_eq_bind, Option.bind_some] at hcomplete ⊢
  rw [hcomplete]
  rfl

end Turn

/-! ### What a request parses to -/

section Parse

variable {options : Options} {env : RequestEnv}

/-- The record for another descriptor and time. -/
def QueueConnectionElementType.stamp (connection : QueueConnectionElementType) (fd : ℕ) (now : ℤ) :
    QueueConnectionElementType :=
  { connection with clientFd := fd, priorityTime := now }

/-- `processRequest` reads neither the descriptor nor the time. -/
theorem processRequest_stamp (connection : QueueConnectionElementType) (fd : ℕ) (now : ℤ) :
    processRequest options env (connection.stamp fd now) =
      (processRequest options env connection).map fun r => (r.1, r.2.stamp fd now) := by
  unfold processRequest
  simp only [QueueConnectionElementType.stamp]
  cases connection.requestBuffer with
  | none => rfl
  | some buffer =>
    cases env.peer with
    | none => rfl
    | some ip =>
      simp only [Option.bind_eq_bind, Option.bind_some]
      cases strstr crlf (cString buffer) with
      | none => rfl
      | some firstLineLength =>
        simp only []
        cases scanRequestLine env ((cString buffer).take firstLineLength) with
        | none => rfl
        | some words =>
          simp only [Option.bind_some, processHeaders]
          split
          · rfl
          · split <;> rfl

/-- What the bytes `got` of a request parse to. -/
def parseOf (options : Options) (env : RequestEnv) (got : Bytes) : Option (Bool × ParsedRequest) :=
  (processRequest options env (received 0 0 got)).map fun r => (r.1, r.2.parsedRequest)

theorem turned_received (reader : Reader) (fd : ℕ) (now now' : ℤ) (got : Bytes) :
    reader.turned options env now' (received fd now got) =
      match parseOf options env got with
      | none => ⟨none, reader.requests ++ [none]⟩
      | some (valid, request) =>
        ⟨if request.Persistent valid then some (receiving fd now' []) else none,
          reader.requests ++ [some (valid, request)]⟩ := by
  have hstamp : received fd now got = (received 0 0 got).stamp fd now := rfl
  unfold Reader.turned parseOf
  rw [hstamp, processRequest_stamp]
  cases processRequest options env (received 0 0 got) with
  | none => rfl
  | some r => rfl

/-- The end of the headers found behind the request line is the first one of the request. -/
theorem endOfHeaders_eq {head : Bytes} {i n e : ℕ} (hend : strstr crlfcrlf head = some i)
    (hi : i + 4 = head.length) (he : strstr crlfcrlf (head.drop n) = some e) (hn : n ≤ head.length) :
    n + (e + 4) = head.length := by
  obtain ⟨hp, -⟩ := strstr_eq_some he
  obtain ⟨-, hfirst⟩ := strstr_eq_some hend
  have hbound := (strstr_bound he).resolve_right (by decide)
  rw [List.length_drop, show crlfcrlf.length = 4 from rfl] at hbound
  rw [List.drop_drop] at hp
  have hge : ¬ n + e < i := fun hlt => hfirst _ hlt hp
  omega

/-- The header part of a request, and the same with bytes behind the blank line. -/
theorem processHeaders_append {head : Bytes} (body : Bytes) {i firstLineLength : ℕ}
    {c c' : QueueConnectionElementType} (hend : strstr crlfcrlf head = some i)
    (hi : i + 4 = head.length) (hline : firstLineLength + 2 ≤ head.length)
    (hc : c'.parsedRequest = c.parsedRequest) (hfresh : c.requestHeaders = [] ∧ c.requestBody = none)
    (hheaders : (processHeaders head firstLineLength c).requestHeaders ≠ []) :
    (processHeaders head firstLineLength c).requestBody = none ∧
      (processHeaders (head ++ body) firstLineLength c').parsedRequest =
        { (processHeaders head firstLineLength c).parsedRequest with
          requestBody := if body = [] then none else some body } := by
  obtain ⟨hmethod, hpath, hversion, hh, hb⟩ := ParsedRequest.mk.inj hc
  unfold processHeaders at *
  cases he : strstr crlfcrlf (head.drop (firstLineLength + 2)) with
  | none => simp [he, hfresh.1] at hheaders
  | some e =>
    have hlen := endOfHeaders_eq hend hi he hline
    have hdrop : (head ++ body).drop (firstLineLength + 2) =
        head.drop (firstLineLength + 2) ++ body :=
      List.drop_append_of_le_length hline
    have hbody : (head.drop (firstLineLength + 2) ++ body).drop (e + 4) = body :=
      List.drop_left' (by rw [List.length_drop]; omega)
    have hnobody : (head.drop (firstLineLength + 2)).drop (e + 4) = [] :=
      List.drop_eq_nil_of_le (by rw [List.length_drop]; omega)
    have hstring : ((head ++ body).drop firstLineLength).take
          (firstLineLength + 2 + (e + 4) - firstLineLength) =
        (head.drop firstLineLength).take (firstLineLength + 2 + (e + 4) - firstLineLength) := by
      rw [List.drop_append_of_le_length (by omega),
        List.take_append_of_le_length (by rw [List.length_drop]; omega)]
    simp only [hdrop, he, strstr_append (by decide) he, hbody, hnobody, hstring,
      QueueConnectionElementType.parsedRequest, hmethod, hpath, hversion, hh, hb, hfresh.2,
      reduceIte, true_and]

/-- **Bytes behind the blank line become the body.** -/
theorem parseOf_append {head : Bytes} {i : ℕ} {request : ParsedRequest}
    (hend : strstr crlfcrlf head = some i) (hi : i + 4 = head.length)
    (hparse : parseOf options env head = some (true, request))
    (hheaders : request.requestHeaders ≠ [])
    {body : Bytes} (hnul : (0 : UInt8) ∉ head ++ body) :
    request.requestBody = none ∧ parseOf options env (head ++ body) =
      some (true, { request with requestBody := if body = [] then none else some body }) := by
  have hnul' : (0 : UInt8) ∉ head := fun h => hnul (List.mem_append_left _ h)
  have hbuffer : ∀ got : Bytes, (received 0 0 got).requestBuffer =
      some (got ++ List.replicate (bufferRequestSize - got.length) 0) := fun _ => rfl
  unfold parseOf processRequest at *
  simp only [hbuffer, Option.bind_eq_bind, Option.bind_some, cString_padded hnul,
    cString_padded hnul'] at hparse ⊢
  cases hip : env.peer with
  | none => simp [hip] at hparse
  | some ip =>
    cases hline : strstr crlf head with
    | none => simp [hip, hline] at hparse
    | some firstLineLength =>
      have hbound : firstLineLength + 2 ≤ head.length :=
        (strstr_bound hline).resolve_right (by decide)
      simp only [hip, hline, strstr_append (by decide) hline] at hparse ⊢
      rw [List.take_append_of_le_length (by omega)]
      cases hwords : scanRequestLine env (head.take firstLineLength) with
      | none => simp [hwords] at hparse
      | some words =>
        simp only [hwords, Option.bind_some] at hparse ⊢
        split at hparse
        · simp at hparse
        · rename_i hmethod
          obtain rfl := (Prod.mk.inj (Option.some.inj hparse)).2
          refine ⟨(processHeaders_append body hend hi hbound rfl ⟨rfl, rfl⟩ hheaders).1, ?_⟩
          rw [if_neg hmethod]
          refine congrArg (fun r => some (true, r))
            (processHeaders_append body hend hi hbound ?_ ⟨rfl, rfl⟩ hheaders).2
          rfl

end Parse

/-! ### Runs of the reader -/

/-- The bytes received so far of a request that is not complete. -/
structure Pending (got : Bytes) : Prop where
  nulFree : (0 : UInt8) ∉ got
  short : got.length < bufferRequestSize
  incomplete : strstr crlfcrlf got = none

theorem pending_nil : Pending [] := ⟨by simp, by simp, by decide⟩

/-- The connection, if it is read, waits for the rest of a request. -/
def Reader.Waits (reader : Reader) : Prop :=
  ∀ connection, reader.connection = some connection →
    ∃ fd now got, connection = receiving fd now got ∧ Pending got

theorem waits_stopped (requests : List (Option (Bool × ParsedRequest))) :
    Reader.Waits ⟨none, requests⟩ := by
  intro connection hc
  cases hc

theorem waits_receiving {fd : ℕ} {now : ℤ} {got : Bytes} (hp : Pending got)
    (requests : List (Option (Bool × ParsedRequest))) :
    Reader.Waits ⟨some (receiving fd now got), requests⟩ := by
  intro connection hc
  exact ⟨fd, now, got, (Option.some.inj hc).symm, hp⟩

section Calls

variable {options : Options} {env : RequestEnv} {reader reader' : Reader} {fd : ℕ} {now : ℤ}
  {got : Bytes}

theorem next_data (options : Options) (env : RequestEnv)
    (hc : reader.connection = some (receiving fd now got)) (hp : Pending got)
    {bytes : Bytes} (hnul : (0 : UInt8) ∉ bytes) (hne : bytes ≠ [])
    (hfit : bytes.length ≤ bufferRequestSize - got.length) (now' : ℤ) :
    reader.next options env ⟨.data bytes, now'⟩ =
      some (if (got ++ bytes).length = bufferRequestSize then ⟨none, reader.requests ++ [none]⟩
        else if (strstr crlfcrlf (got ++ bytes)).isSome then
          reader.turned options env now' (received fd now (got ++ bytes))
        else ⟨some (receiving fd now (got ++ bytes)), reader.requests⟩) := by
  have hcuts : (RecvResult.data bytes).Cuts
      ((receiving fd now got).requestBufferLength - (receiving fd now got).requestBufferOffset) :=
    ⟨hne, hfit⟩
  have hnul' : (0 : UInt8) ∉ got ++ bytes := by
    rw [List.mem_append]
    exact not_or.mpr ⟨hp.nulFree, hnul⟩
  unfold Reader.next
  simp only [hc, if_pos hcuts, recvRequestTurn_data hnul' hne hfit hp.short]
  by_cases hfull : (got ++ bytes).length = bufferRequestSize
  · simp only [if_pos hfull]
  · by_cases hcomplete : (strstr crlfcrlf (got ++ bytes)).isSome
    · simp only [if_neg hfull, if_pos hcomplete]
    · simp only [if_neg hfull, if_neg hcomplete]
      rfl

theorem next_idle (hw : reader.Waits) {call : RecvCall} (hcall : call.bytes = [])
    (hn : reader.next options env call = some reader') : reader' = reader := by
  unfold Reader.next at hn
  cases hc : reader.connection with
  | none =>
    rw [hc] at hn
    exact (Option.some.inj hn).symm
  | some connection =>
    obtain ⟨fd, now, got, rfl, hp⟩ := hw _ hc
    obtain ⟨result, now'⟩ := call
    simp only [hc] at hn
    split at hn
    · rename_i hcuts
      obtain ⟨c, requests⟩ := reader
      obtain rfl : c = some (receiving fd now got) := hc
      cases result with
      | data bytes => exact absurd hcall hcuts.1
      | eintr => exact (Option.some.inj hn).symm
      | eagain =>
        rw [recvRequestTurn_eagain hp.nulFree hp.short hp.incomplete] at hn
        exact (Option.some.inj hn).symm
      | error => exact hcuts.elim
    · cases hn

theorem next_inv (hc : reader.connection = some (receiving fd now got)) (hp : Pending got)
    {call : RecvCall} (hnul : (0 : UInt8) ∉ call.bytes) (hne : call.bytes ≠ [])
    (hn : reader.next options env call = some reader') :
    (got ++ call.bytes).length ≤ bufferRequestSize ∧
      reader' = if (got ++ call.bytes).length = bufferRequestSize then
          ⟨none, reader.requests ++ [none]⟩
        else if (strstr crlfcrlf (got ++ call.bytes)).isSome then
          reader.turned options env call.now (received fd now (got ++ call.bytes))
        else ⟨some (receiving fd now (got ++ call.bytes)), reader.requests⟩ := by
  obtain ⟨result, now'⟩ := call
  cases result with
  | data bytes =>
    have hfit : bytes.length ≤ bufferRequestSize - got.length := by
      unfold Reader.next at hn
      simp only [hc] at hn
      split at hn
      · exact And.right ‹_›
      · cases hn
    have hnext := next_data options env hc hp hnul hne hfit now'
    have hshort := hp.short
    refine ⟨?_, Option.some.inj (hn.symm.trans hnext)⟩
    show (got ++ bytes).length ≤ _
    rw [List.length_append]
    omega
  | eintr => exact absurd rfl hne
  | eagain => exact absurd rfl hne
  | error => exact absurd rfl hne

theorem turned_requests (reader : Reader) (fd : ℕ) (now now' : ℤ) (got : Bytes) :
    (reader.turned options env now' (received fd now got)).requests =
      reader.requests ++ [parseOf options env got] := by
  rw [turned_received]
  split <;> simp only [*]

/-- After a complete request the connection waits for the next one or is not read. -/
theorem turned_waits (reader : Reader) (fd : ℕ) (now now' : ℤ) (got : Bytes) :
    (reader.turned options env now' (received fd now got)).Waits := by
  rw [turned_received]
  split
  · exact waits_stopped _
  · split
    · exact waits_receiving pending_nil _
    · exact waits_stopped _

/-- **What every call keeps.** -/
theorem next_waits (hw : reader.Waits) {call : RecvCall} (hnul : (0 : UInt8) ∉ call.bytes)
    (hn : reader.next options env call = some reader') :
    reader'.Waits ∧ reader.requests <+: reader'.requests := by
  by_cases hidle : call.bytes = []
  · obtain rfl := next_idle hw hidle hn
    exact ⟨hw, List.prefix_rfl⟩
  cases hc : reader.connection with
  | none =>
    unfold Reader.next at hn
    rw [hc] at hn
    obtain rfl := Option.some.inj hn
    exact ⟨hw, List.prefix_rfl⟩
  | some connection =>
    obtain ⟨fd, now, got, rfl, hp⟩ := hw _ hc
    have hnul' : (0 : UInt8) ∉ got ++ call.bytes := by
      rw [List.mem_append]
      exact not_or.mpr ⟨hp.nulFree, hnul⟩
    obtain ⟨hle, rfl⟩ := next_inv hc hp hnul hidle hn
    split
    · exact ⟨waits_stopped _, List.prefix_append _ _⟩
    · split
      · refine ⟨turned_waits reader fd now _ _, ?_⟩
        rw [turned_requests]
        exact List.prefix_append _ _
      · rename_i hfull hopen
        have hpending : Pending (got ++ call.bytes) :=
          ⟨hnul', lt_of_le_of_ne hle hfull, by simpa using hopen⟩
        exact ⟨waits_receiving hpending _, List.prefix_rfl⟩

theorem streamOf_cons (call : RecvCall) (calls : List RecvCall) :
    streamOf (call :: calls) = call.bytes ++ streamOf calls := rfl

theorem exec_idle (hw : reader.Waits) {calls : List RecvCall} (hcalls : streamOf calls = [])
    (he : exec (Reader.next options env) reader calls = some reader') : reader' = reader := by
  induction calls with
  | nil => exact (Option.some.inj he).symm
  | cons call calls ih =>
    obtain ⟨hcall, hcalls⟩ := List.append_eq_nil_iff.mp (streamOf_cons call calls ▸ hcalls)
    obtain ⟨reader₁, hn, he'⟩ := Option.bind_eq_some_iff.mp he
    obtain rfl := next_idle hw hcall hn
    exact ih hcalls he'

/-- Whatever the stream is, its bytes can arrive one by one. -/
theorem exists_calls (options : Options) (env : RequestEnv) {reader : Reader} (stream : Bytes)
    (hnul : (0 : UInt8) ∉ stream) (hw : reader.Waits) :
    ∃ calls reader', streamOf calls = stream ∧
      exec (Reader.next options env) reader calls = some reader' ∧
      reader.requests <+: reader'.requests := by
  induction stream generalizing reader with
  | nil => exact ⟨[], reader, rfl, rfl, List.prefix_rfl⟩
  | cons x stream ih =>
    have hx : (0 : UInt8) ∉ [x] := fun h =>
      hnul (List.mem_cons.mpr (Or.inl (List.mem_singleton.mp h)))
    obtain ⟨reader₁, hn⟩ : ∃ reader₁, reader.next options env ⟨.data [x], 0⟩ = some reader₁ := by
      cases hc : reader.connection with
      | none =>
        refine ⟨reader, ?_⟩
        unfold Reader.next
        rw [hc]
      | some connection =>
        obtain ⟨fd, now, got, rfl, hp⟩ := hw _ hc
        have hroom : [x].length ≤ bufferRequestSize - got.length := by
          have := hp.short
          simp only [List.length_singleton]
          omega
        exact ⟨_, next_data options env hc hp hx (List.cons_ne_nil _ _) hroom 0⟩
    obtain ⟨hw₁, hpre⟩ := next_waits hw (show (0 : UInt8) ∉ RecvCall.bytes ⟨.data [x], 0⟩ from hx) hn
    obtain ⟨calls, reader', hs, he, hpre'⟩ := ih (fun h => hnul (List.mem_cons_of_mem _ h)) hw₁
    refine ⟨⟨.data [x], 0⟩ :: calls, reader', ?_, ?_, hpre.trans hpre'⟩
    · rw [streamOf_cons, hs]
      rfl
    · unfold exec
      rw [hn]
      exact he

end Calls

/-! ### Complete requests -/

/-- A request that asks to keep the connection: a head that ends at its first blank line, then a
body. The receiver sees only the bytes. -/
structure CompleteRequest (options : Options) (env : RequestEnv) where
  head : Bytes
  body : Bytes
  endsHead : ∃ i, strstr crlfcrlf head = some i ∧ i + 4 = head.length
  short : (head ++ body).length < bufferRequestSize
  nulFree : (0 : UInt8) ∉ head ++ body
  persistent : ∃ request, parseOf options env head = some (true, request) ∧ request.Persistent true

/-- What the client sends. -/
def wireBytes {options : Options} {env : RequestEnv} (requests : List (CompleteRequest options env)) :
    Bytes :=
  (requests.map fun r => r.head ++ r.body).flatten

section Requests

variable {options : Options} {env : RequestEnv}

theorem asksKeepAlive_ne_nil {requestHeaders : List Header} (h : asksKeepAlive requestHeaders) :
    requestHeaders ≠ [] := by
  rintro rfl
  cases h

namespace CompleteRequest

variable (r : CompleteRequest options env)

theorem head_nulFree : (0 : UInt8) ∉ r.head := fun h => r.nulFree (List.mem_append_left _ h)

theorem head_short : r.head.length < bufferRequestSize :=
  lt_of_le_of_lt (List.length_append ▸ Nat.le_add_right _ _) r.short

theorem head_complete : (strstr crlfcrlf r.head).isSome := by
  obtain ⟨i, hi, -⟩ := r.endsHead
  rw [hi]
  rfl

theorem head_ne_nil : r.head ≠ [] := by
  obtain ⟨i, -, hi⟩ := r.endsHead
  rintro h
  rw [h] at hi
  cases hi

theorem incomplete_of_prefix {got : Bytes} (hp : got <+: r.head) (hne : got ≠ r.head) :
    strstr crlfcrlf got = none := by
  obtain ⟨i, hi, hend⟩ := r.endsHead
  exact strstr_prefix_eq_none (by decide) hi hend hp hne

theorem parseOf_snoc_ne {x : UInt8} (hx : x ≠ 0) :
    parseOf options env (r.head ++ [x]) ≠ parseOf options env r.head := by
  obtain ⟨i, hi, hend⟩ := r.endsHead
  obtain ⟨request, hparse, -, -, -, hkeep⟩ := r.persistent
  have hnul : (0 : UInt8) ∉ r.head ++ [x] := by
    rw [List.mem_append, List.mem_singleton]
    exact not_or.mpr ⟨r.head_nulFree, hx.symm⟩
  obtain ⟨hbody, hsnoc⟩ := parseOf_append hi hend hparse (asksKeepAlive_ne_nil hkeep) hnul
  rw [hsnoc, hparse]
  intro h
  have := congrArg ParsedRequest.requestBody (Prod.mk.inj (Option.some.inj h)).2
  rw [hbody] at this
  cases this

end CompleteRequest

theorem exec_head (r : CompleteRequest options env) {calls : List RecvCall} {reader reader' : Reader}
    {fd : ℕ} {now : ℤ} {got : Bytes} (hc : reader.connection = some (receiving fd now got))
    (hne : got ≠ r.head) (hs : got ++ streamOf calls = r.head)
    (he : exec (Reader.next options env) reader calls = some reader') :
    reader'.requests = reader.requests ++ [parseOf options env r.head] := by
  induction calls generalizing reader got with
  | nil => exact absurd (by simpa [streamOf] using hs) hne
  | cons call calls ih =>
    rw [streamOf_cons, ← List.append_assoc] at hs
    have hpre : got ++ call.bytes <+: r.head := ⟨_, hs⟩
    have hgot : got <+: r.head := (List.prefix_append _ _).trans hpre
    have hnul : (0 : UInt8) ∉ got ++ call.bytes := fun h => r.head_nulFree (hpre.subset h)
    have hlen : (got ++ call.bytes).length < bufferRequestSize :=
      lt_of_le_of_lt hpre.length_le r.head_short
    have hp : Pending got :=
      ⟨fun h => r.head_nulFree (hgot.subset h), lt_of_le_of_lt hgot.length_le r.head_short,
        r.incomplete_of_prefix hgot hne⟩
    have hw : reader.Waits := by
      obtain ⟨c, requests⟩ := reader
      obtain rfl : c = some (receiving fd now got) := hc
      exact waits_receiving hp _
    obtain ⟨reader₁, hn, he'⟩ := Option.bind_eq_some_iff.mp he
    by_cases hidle : call.bytes = []
    · obtain rfl := next_idle hw hidle hn
      exact ih hc hne (by rw [hidle, List.append_nil] at hs; exact hs) he'
    · obtain ⟨-, rfl⟩ := next_inv hc hp (fun h => hnul (List.mem_append_right _ h)) hidle hn
      rw [if_neg hlen.ne] at he'
      by_cases hall : got ++ call.bytes = r.head
      · -- the last piece of the head
        rw [hall, if_pos r.head_complete] at he'
        rw [hall, List.append_right_eq_self] at hs
        rw [exec_idle (turned_waits reader fd now call.now _) hs he', turned_requests]
      · have hopen := r.incomplete_of_prefix hpre hall
        rw [hopen, if_neg (by simp)] at he'
        have hc' : Reader.connection ⟨some (receiving fd now (got ++ call.bytes)), reader.requests⟩ =
            some (receiving fd now (got ++ call.bytes)) := rfl
        have hrequests := ih hc' hall hs he'
        exact hrequests

theorem exists_first_piece (options : Options) (env : RequestEnv) (fd : ℕ) (now : ℤ)
    {piece rest : Bytes} (hne : piece ≠ [])
    (hshort : piece.length ≤ bufferRequestSize) (hnul : (0 : UInt8) ∉ piece ++ rest)
    (hcomplete : (strstr crlfcrlf piece).isSome) :
    ∃ calls reader', streamOf calls = piece ++ rest ∧
      exec (Reader.next options env) (.start fd now) calls = some reader' ∧
      [if piece.length = bufferRequestSize then none else parseOf options env piece] <+:
        reader'.requests := by
  have hnul' : (0 : UInt8) ∉ piece := fun h => hnul (List.mem_append_left _ h)
  have hn : Reader.next options env (.start fd now) ⟨.data piece, 0⟩ = _ :=
    next_data options env rfl pending_nil hnul' hne hshort 0
  rw [List.nil_append, if_pos hcomplete] at hn
  obtain ⟨hw, hpre⟩ := next_waits (waits_receiving pending_nil _)
    (show (0 : UInt8) ∉ RecvCall.bytes ⟨.data piece, 0⟩ from hnul') hn
  obtain ⟨calls, reader', hs, he, hpre'⟩ :=
    exists_calls options env rest (fun h => hnul (List.mem_append_right _ h)) hw
  refine ⟨⟨.data piece, 0⟩ :: calls, reader', ?_, ?_, ?_⟩
  · rw [streamOf_cons, hs]
    rfl
  · unfold exec
    rw [hn]
    exact he
  · refine List.IsPrefix.trans ?_ hpre'
    split
    · exact List.prefix_rfl
    · rw [turned_requests]
      exact List.prefix_rfl

theorem wireBytes_cons (r : CompleteRequest options env)
    (requests : List (CompleteRequest options env)) :
    wireBytes (r :: requests) = r.head ++ r.body ++ wireBytes requests := rfl

theorem wireBytes_nulFree (requests : List (CompleteRequest options env)) :
    (0 : UInt8) ∉ wireBytes requests := by
  induction requests with
  | nil => simp [wireBytes]
  | cons r requests ih =>
    rw [wireBytes_cons, List.mem_append]
    exact not_or.mpr ⟨r.nulFree, ih⟩

theorem wireBytes_eq_nil {requests : List (CompleteRequest options env)}
    (h : wireBytes requests = []) : requests = [] := by
  cases requests with
  | nil => rfl
  | cons r requests =>
    rw [wireBytes_cons, List.append_assoc] at h
    exact absurd (List.append_eq_nil_iff.mp h).1 r.head_ne_nil

/-- Behind the head of a request, one byte more in the first piece gives another first request. -/
theorem not_segmentationIndependent (fd : ℕ) (now : ℤ) (r : CompleteRequest options env)
    {x : UInt8} {rest : Bytes} (hnul : (0 : UInt8) ∉ r.head ++ x :: rest) :
    ¬ SegmentationIndependent options env fd now (r.head ++ x :: rest) := by
  intro hind
  have hx : x ≠ 0 := by
    rintro rfl
    exact hnul (by simp)
  -- the head alone, and the head with the byte behind it
  obtain ⟨calls₁, reader₁, hs₁, he₁, hp₁⟩ := exists_first_piece options env fd now
    r.head_ne_nil r.head_short.le hnul r.head_complete
  have hpiece : (r.head ++ [x]) ++ rest = r.head ++ x :: rest := List.append_cons .. |>.symm
  have hlong : (r.head ++ [x]).length ≤ bufferRequestSize := by
    have := r.head_short
    rw [List.length_append, List.length_singleton]
    omega
  have hcomplete : (strstr crlfcrlf (r.head ++ [x])).isSome := by
    obtain ⟨i, hi, -⟩ := r.endsHead
    rw [strstr_append (by decide) hi]
    rfl
  obtain ⟨calls₂, reader₂, hs₂, he₂, hp₂⟩ := exists_first_piece options env fd now
    (by simp) hlong (hpiece ▸ hnul) hcomplete
  have hsame := hind calls₁ calls₂ reader₁ reader₂ hs₁ (hs₂.trans hpiece) he₁ he₂
  rw [if_neg r.head_short.ne, hsame] at hp₁
  have hfirst : [parseOf options env r.head] = [_] :=
    (List.prefix_of_prefix_length_le hp₁ hp₂ le_rfl).eq_of_length rfl
  rw [List.singleton_inj] at hfirst
  split at hfirst
  · obtain ⟨request, hparse, -⟩ := r.persistent
    rw [hparse] at hfirst
    cases hfirst
  · exact r.parseOf_snoc_ne hx hfirst.symm

/-- **Segmentation.** All cuts of a stream of complete requests give the same requests exactly when
nothing follows the first blank line: there is no request, or one request without a body. -/
theorem segmentationIndependent_iff (fd : ℕ) (now : ℤ)
    (requests : List (CompleteRequest options env)) :
    SegmentationIndependent options env fd now (wireBytes requests) ↔
      requests = [] ∨ ∃ r, requests = [r] ∧ r.body = [] := by
  constructor
  · intro hind
    cases requests with
    | nil => exact Or.inl rfl
    | cons r requests =>
      cases hrest : r.body ++ wireBytes requests with
      | nil =>
        obtain ⟨hbody, hrest⟩ := List.append_eq_nil_iff.mp hrest
        exact Or.inr ⟨r, by rw [wireBytes_eq_nil hrest], hbody⟩
      | cons x rest =>
        have hnul := wireBytes_nulFree (r :: requests)
        rw [wireBytes_cons, List.append_assoc, hrest] at hind hnul
        exact absurd hind (not_segmentationIndependent fd now r hnul)
  · rintro (rfl | ⟨r, rfl, hbody⟩) calls₁ calls₂ reader₁ reader₂ hs₁ hs₂ he₁ he₂
    · have hw : (Reader.start fd now).Waits := waits_receiving pending_nil _
      rw [exec_idle hw hs₁ he₁, exec_idle hw hs₂ he₂]
    · have hstream : wireBytes [r] = [] ++ r.head := by
        rw [wireBytes_cons, hbody]
        simp [wireBytes]
      rw [hstream] at hs₁ hs₂
      rw [exec_head r rfl r.head_ne_nil.symm hs₁ he₁, exec_head r rfl r.head_ne_nil.symm hs₂ he₂]

end Requests

/-! ### Two pipelined requests -/

/-- The request for the index page. -/
def indexRequest : CompleteRequest wwwOptions localEnv where
  head := indexPageRequest
  body := []
  endsHead := ⟨38, by decide +kernel⟩
  short := by decide +kernel
  nulFree := by decide +kernel
  persistent := by
    have hany : (parseOf wwwOptions localEnv indexPageRequest).any
        fun r => r.1 ∧ r.2.Persistent true := by decide +kernel
    obtain ⟨⟨valid, request⟩, hparse, hp⟩ := (Option.any_eq_true ..).mp hany
    obtain ⟨hvalid, hp⟩ := of_decide_eq_true hp
    obtain rfl : valid = true := hvalid
    exact ⟨request, hparse, hp⟩

/-- In one segment the second request becomes the body of the first one; in two segments there are
two requests. -/
theorem pipelined_requests_differ :
    ¬ SegmentationIndependent wwwOptions localEnv 5 0 (wireBytes [indexRequest, indexRequest]) := by
  intro hind
  have h₁ : (exec (Reader.next wwwOptions localEnv) (.start 5 0)
      [⟨.data (wireBytes [indexRequest, indexRequest]), 0⟩]).map (·.requests.length) = some 1 := by
    decide +kernel
  have h₂ : (exec (Reader.next wwwOptions localEnv) (.start 5 0)
      [⟨.data indexRequest.head, 0⟩, ⟨.data indexRequest.head, 0⟩]).map (·.requests.length) =
        some 2 := by decide +kernel
  obtain ⟨reader₁, he₁, hlen₁⟩ := Option.map_eq_some_iff.mp h₁
  obtain ⟨reader₂, he₂, hlen₂⟩ := Option.map_eq_some_iff.mp h₂
  have hsame := hind _ _ reader₁ reader₂ (by decide +kernel) (by decide +kernel) he₁ he₂
  rw [hsame, hlen₂] at hlen₁
  cases hlen₁

end UbServer

import UbServer.Connection
import UbServer.Lib.CString

/-!
# Receiving and parsing a request

`request.c` and the lookups of `header.c`. One turn of the loop of `recvRequest` is
`recvRequestTurn`, given what `recv` returned. A result `none` is undefined behaviour: an access
outside a block or a local array.

`processRequest` takes from outside what `getpeername` answers and what its local arrays hold before
`sscanf` writes them.
-/

namespace UbServer

open CString

def crlf : Bytes := [13, 10]

def crlfcrlf : Bytes := [13, 10, 13, 10]

/-! ### `recvRequest` -/

/-- Whether the string in the buffer contains the end of the headers. `strstr` runs past the end of
a block that holds neither that nor a NUL. -/
def isRequestComplete (buffer : Bytes) : Option Bool :=
  if (strstr crlfcrlf (cString buffer)).isSome then some true
  else if (0 : UInt8) ∈ buffer then some false
  else none

/-- What a call of `recv` returns. -/
inductive RecvResult where
  | data (bytes : Bytes)
  | eintr
  | eagain
  | error
  deriving DecidableEq, Repr

/-- Terminate the buffer at the offset and go on to `STATE_CONNECTION_SEND_HEADERS`. -/
def finishRequest (connection : QueueConnectionElementType) (buffer : Bytes) :
    Option QueueConnectionElementType :=
  if connection.requestBufferOffset < buffer.length then
    some { connection with
      requestBuffer := some (writeAt buffer connection.requestBufferOffset [0])
      state := .sendHeaders
      requestBufferOffset := 0 }
  else none

/-- One turn of the loop of `recvRequest`. The flag is whether the loop goes on. At most as many
bytes are received as the call asks for. -/
def recvRequestTurn (connection : QueueConnectionElementType) (r : RecvResult) :
    Option (QueueConnectionElementType × Bool) := do
  let buffer ← connection.requestBuffer
  match r with
  | .eintr => some (connection, true)
  | .eagain =>
    if ← isRequestComplete buffer then
      return (← finishRequest connection buffer, false)
    else return (connection, false)
  | .error => some ({ connection with state := .doneForClose }, false)
  | .data bytes =>
    let got := bytes.take (connection.requestBufferLength - connection.requestBufferOffset)
    if got = [] then
      -- 0 bytes read, client disconnected
      some ({ connection with state := .doneForClose }, false)
    else
      let buffer := writeAt buffer connection.requestBufferOffset got
      let connection := { connection with
        requestBuffer := some buffer
        requestBufferOffset := connection.requestBufferOffset + got.length }
      if ← isRequestComplete buffer then
        return (← finishRequest connection buffer, false)
      else return (connection, true)

/-! ### `processRequest` -/

structure Options where
  htmlDir : Bytes

/-- What `processRequest` gets from outside: the text `inet_ntoa` makes of the peer's address, or
`none` when `getpeername` fails, and the strings in its uninitialised arrays. -/
structure RequestEnv where
  peer : Option Bytes
  method : Bytes
  path : Bytes
  protocolVersion : Bytes

def methodsList : List (Bytes × Method) :=
  [(bytes "GET", .get), (bytes "POST", .post), (bytes "PUT", .put), (bytes "PATCH", .patch),
    (bytes "DELETE", .delete), (bytes "HEAD", .head), (bytes "OPTIONS", .options)]

def methodToStr : Method → Bytes
  | .get => bytes "GET"
  | .post => bytes "POST"
  | .put => bytes "PUT"
  | .patch => bytes "PATCH"
  | .delete => bytes "DELETE"
  | .head => bytes "HEAD"
  | .options => bytes "OPTIONS"
  | .unsupported => bytes "UNSUPPORTED"

def strToMethod (method : Bytes) : Method := (methodsList.lookup method).getD .unsupported

/-- A string that fits an array of the given size with its NUL. -/
def fits (size : ℕ) (s : Bytes) : Option Bytes := if s.length < size then some s else none

theorem fits_of_lt {size : ℕ} {s : Bytes} (h : s.length < size) : fits size s = some s := if_pos h

theorem fits_inv {size : ℕ} {s t : Bytes} (h : fits size s = some t) : t = s ∧ t.length < size := by
  unfold fits at h
  split at h
  · obtain rfl := Option.some.inj h
    exact ⟨rfl, ‹_›⟩
  · cases h

/-- `sscanf(requestLine, "%s %s %s", method, path, protocolVersion)`: the three arrays afterwards.
An array that gets no token keeps what it held. -/
def scanRequestLine (env : RequestEnv) (requestLine : Bytes) : Option (Bytes × Bytes × Bytes) := do
  let tokens := scanWords 3 requestLine
  let method ← fits 10 (tokens.getD 0 env.method)
  let path ← fits requestPathMaxSize (tokens.getD 1 env.path)
  let protocolVersion ← fits 9 (tokens.getD 2 env.protocolVersion)
  return (method, path, protocolVersion)

/-- The path without its query, with the index page for the root. -/
def realPath (path : Bytes) : Bytes :=
  let real := path.takeWhile (· ≠ 63)
  if real = bytes "/" then bytes "/index.html" else real

def absolutePathOf (options : Options) (path : Bytes) : Bytes := options.htmlDir ++ realPath path

def isLineBreak (c : UInt8) : Bool := c = 13 ∨ c = 10

/-- The header node that `processRequest` makes of a line. `rest` is the memory from the start of
the line on; `strtok` has put a NUL at the end of the line, and the memory after that is as it was. -/
def headerNode (rest : Bytes) : Header :=
  let line := rest.takeWhile (!isLineBreak ·)
  let nameLen := strcspn line (bytes ": ")
  let value :=
    if nameLen + 2 ≤ line.length then line.drop (nameLen + 2)
    else (rest.drop (nameLen + 2)).takeWhile (!isLineBreak ·)
  { name := (line.take nameLen).map tolower, value := value }

/-- The `strtok` loop: each line becomes a node in front of the list. -/
def headersLoop (headersString : Bytes) (requestHeaders : List Header) : List Header :=
  match _h : headersString.dropWhile isLineBreak with
  | [] => requestHeaders
  | a :: rest =>
    headersLoop (((a :: rest).dropWhile (!isLineBreak ·)).drop 1)
      (headerNode (a :: rest) :: requestHeaders)
termination_by headersString.length
decreasing_by
  have h1 : (headersString.dropWhile isLineBreak).length ≤ headersString.length :=
    (List.dropWhile_suffix _).length_le
  have h2 : ((a :: rest).dropWhile (!isLineBreak ·)).length ≤ (a :: rest).length :=
    (List.dropWhile_suffix _).length_le
  rw [_h] at h1
  simp only [List.length_drop, List.length_cons] at *
  omega

/-- The part of `processRequest` after the request line, which ends at `firstLineLength`. -/
def processHeaders (text : Bytes) (firstLineLength : ℕ) (connection : QueueConnectionElementType) :
    QueueConnectionElementType :=
  let buffer := text.drop (firstLineLength + 2)
  match strstr crlfcrlf buffer with
  | none => connection -- "Request without headers"
  | some endOfHeaders =>
    let body := buffer.drop (endOfHeaders + 4)
    let headersSize := firstLineLength + 2 + (endOfHeaders + 4) - firstLineLength
    let headersString := (text.drop firstLineLength).take headersSize
    { connection with
      requestBody := if body = [] then connection.requestBody else some body
      requestHeaders := headersLoop headersString connection.requestHeaders }

/-- The flag is the value returned: `false` is a bad request. -/
def processRequest (options : Options) (env : RequestEnv) (connection : QueueConnectionElementType) :
    Option (Bool × QueueConnectionElementType) := do
  let buffer ← connection.requestBuffer
  let text := cString buffer
  let c₁ := { connection with scheme := bytes "http" }
  match env.peer with
  | none => return (false, c₁)
  | some ip =>
    let c₂ := { c₁ with ip := ip }
    match strstr crlf text with
    | none => return (false, c₂)
    | some firstLineLength =>
      let (method, path, protocolVersion) ← scanRequestLine env (text.take firstLineLength)
      let c₃ := { c₂ with
        path := some path
        method := strToMethod method
        protocolVersion := protocolVersion }
      if c₃.method = .unsupported then return (false, c₃)
      else
        let c₄ := { c₃ with absolutePath := some (absolutePathOf options path) }
        return (true, processHeaders text firstLineLength c₄)

/-! ### `header.c` -/

def getHeader (header : List Header) (name : Bytes) : Option Bytes :=
  (header.find? (·.name == name)).map (·.value)

/-! ### What the request asks of the server -/

/-- The protocols `handleEpoll` goes on with. -/
def supportedProtocol (protocol : Bytes) : Bool :=
  protocol = bytes "HTTP/1.0" ∨ protocol = bytes "HTTP/1.1"

/-- The path that `handleEpoll` answers by itself. -/
def isHello (path : Option Bytes) : Bool := path = some (bytes "/hello")

/-- The test of `makeResponse` on the `connection` header: its value starts with `'k'`. -/
def asksKeepAlive (requestHeaders : List Header) : Bool :=
  (getHeader requestHeaders (bytes "connection")).any (·.head? = some 107)

/-! ### A site for concrete runs -/

def wwwOptions : Options := ⟨bytes "/www"⟩

def localEnv : RequestEnv := ⟨some (bytes "127.0.0.1"), [], [], []⟩

/-- The threads of a run with two of them. -/
def firstThread : Fin 2 := 0

def secondThread : Fin 2 := 1

/-- A request for the index page on a connection to be kept. -/
def indexPageRequest : Bytes := bytes "GET / HTTP/1.1\r\nconnection: keep-alive\r\n\r\n"

end UbServer

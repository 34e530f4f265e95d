import UbServer.HeaderLines
import UbServer.Logger
import UbServer.ReceiveBuffer

/-!
# The log line of a request

`logRequest` of `request.c`, and the calls of the logger that `processRequest` itself makes. What a
client sends reaches the message through `sscanf`, `strtok` and `strcspn`.

* `Unbroken`: a text that a log line may contain.
* `LogCall`: a call of one of the macros of `logger.h`; `logged` is what calls append to the log.
* `logRequest`: the call with the message, if the URL fits its array.
* `logRequest_oneLine`: the call appends one line, whatever the request.
-/

namespace UbServer

open CString Runs

/-! ### Calls of the logger -/

/-- `__FILE__` in `request.c`. -/
def requestFile : Bytes := bytes "src/request.c"

/-- A call of `logMessage` in `request.c`. -/
structure LogCall where
  level : LogLevel
  showErrno : Bool
  codeLine : ℤ
  message : Bytes
  deriving DecidableEq

def logInfo (codeLine : ℤ) (message : Bytes) : LogCall := ⟨.info, false, codeLine, message⟩

def logError (codeLine : ℤ) (message : Bytes) : LogCall := ⟨.error, true, codeLine, message⟩

/-- What calls append to the log. -/
def logged (env : LogEnv) : List LogCall → Option Bytes
  | [] => some []
  | call :: calls => do
    let aiocb ← logMessage env call.level call.showErrno requestFile call.codeLine call.message
    let text ← logged env calls
    return aiocb.aioBuf ++ text

/-- The number of lines in a text whose lines each end in a newline. -/
def lineCount (text : Bytes) : ℕ := text.count 10

/-! ### `request.c` -/

/-- `inet_ntoa`. -/
def inetNtoa (a b c d : UInt8) : Bytes :=
  bytes (toString a.toNat) ++ bytes "." ++ bytes (toString b.toNat) ++ bytes "." ++
    bytes (toString c.toNat) ++ bytes "." ++ bytes (toString d.toNat)

/-- The calls of the logger that `processRequest` makes. -/
def processRequestLog (env : RequestEnv) (connection : QueueConnectionElementType) :
    Option (List LogCall) := do
  let buffer ← connection.requestBuffer
  let text := cString buffer
  match env.peer with
  | none => return [logError 73 (bytes "getpeername failed")]
  | some _ =>
    match strstr crlf text with
    | none => return [logError 82 (bytes "firstLine is NULL, no CRLF found. Report bad request")]
    | some firstLineLength =>
      let (method, _, _) ← scanRequestLine env (text.take firstLineLength)
      if strToMethod method = .unsupported then
        return [logError 104 (bytes "UNSUPPORTED method " ++ method)]
      else
        match strstr crlfcrlf (text.drop (firstLineLength + 2)) with
        | none => return [logInfo 128 (bytes "Request without headers")]
        | some _ => return []

/-- What `%s` prints. -/
def printedString (s : Option Bytes) : Bytes := s.getD (bytes "(null)")

/-- The string that `logRequest` stores in its array `URL`. -/
def requestUrl (connection : QueueConnectionElementType) : Bytes :=
  match getHeader connection.requestHeaders (bytes "host") with
  | some host => connection.scheme ++ bytes "://" ++ host ++ printedString connection.path
  | none => connection.path.getD (bytes "<URL>")

/-- The call that `logRequest` makes; `none` if the URL does not fit its array. -/
def logRequest (connection : QueueConnectionElementType) : Option LogCall :=
  let bodyLength := (connection.requestBody.getD []).length
  let userAgent := getHeader connection.requestHeaders (bytes "user-agent")
  let referer := getHeader connection.requestHeaders (bytes "referer")
  (fits requestPathMaxSize (requestUrl connection)).map fun URL =>
    logInfo 221 (bytes "Request | \"" ++ methodToStr connection.method ++ bytes " " ++
      printedString connection.path ++ bytes " " ++ connection.protocolVersion ++ bytes "\" - " ++
      bytes (toString bodyLength) ++ bytes " - " ++ connection.ip ++ bytes " - " ++ URL ++
      bytes " - " ++ referer.getD [] ++ bytes " - \"" ++ userAgent.getD [] ++ bytes "\"")

/-! ### Texts without line breaks -/

/-- A C string without CR and LF. -/
def Unbroken (s : Bytes) : Prop := ∀ c ∈ s, c ≠ 13 ∧ c ≠ 10 ∧ c ≠ 0

instance : DecidablePred Unbroken := fun s =>
  List.decidableBAll (fun c => c ≠ 13 ∧ c ≠ 10 ∧ c ≠ 0) s

section Unbroken

variable {s t : Bytes}

theorem unbroken_append : Unbroken (s ++ t) ↔ Unbroken s ∧ Unbroken t := List.forall_mem_append

theorem Unbroken.notMem (h : Unbroken s) :
    (13 : UInt8) ∉ s ∧ (10 : UInt8) ∉ s ∧ (0 : UInt8) ∉ s :=
  ⟨fun hmem => (h _ hmem).1 rfl, fun hmem => (h _ hmem).2.1 rfl, fun hmem => (h _ hmem).2.2 rfl⟩

theorem unbroken_nat (n : ℕ) : Unbroken (bytes (toString n)) := by
  intro c hc
  rw [bytes_toString_nat] at hc
  have hcode := mem_bytes_toString hc
  refine ⟨?_, ?_, ?_⟩ <;>
  · rintro rfl
    simp at hcode

theorem unbroken_texts : ∀ text ∈ [bytes "Request | \"", bytes " ", bytes "\" - ", bytes " - ",
    bytes " - \"", bytes "\"", bytes ".", bytes "http", bytes "://", bytes "(null)", bytes "<URL>",
    bytes "getpeername failed", bytes "UNSUPPORTED method ", bytes "Request without headers",
    bytes "GET", bytes "POST", bytes "PUT", bytes "PATCH", bytes "DELETE", bytes "HEAD",
    bytes "OPTIONS", bytes "UNSUPPORTED"], Unbroken text := by
  decide +kernel

theorem unbroken_methodToStr (method : Method) : Unbroken (methodToStr method) :=
  unbroken_texts _ (by cases method <;> simp [methodToStr])

theorem unbroken_inetNtoa (a b c d : UInt8) : Unbroken (inetNtoa a b c d) := by
  have hdot : Unbroken (bytes ".") := unbroken_texts _ (by simp)
  unfold inetNtoa
  simp only [unbroken_append, unbroken_nat, hdot, and_self]

/-- A word that `sscanf` reads, and what `strtok` and `strcspn` leave of a line. -/
theorem unbroken_word {word : Bytes} {n : ℕ} (hs : (0 : UInt8) ∉ s) (h : word ∈ scanWords n s) :
    Unbroken word := by
  obtain ⟨hpart, hspace⟩ := mem_scanWords h
  intro c hc
  refine ⟨?_, ?_, ?_⟩
  · rintro rfl
    exact hspace 13 hc (by decide)
  · rintro rfl
    exact hspace 10 hc (by decide)
  · rintro rfl
    exact hs (hpart.subset hc)

/-- The value of a header ends before the next CR or LF, also where it is read behind the line. -/
theorem unbroken_headerNode {rest : Bytes} (hs : (0 : UInt8) ∉ s) (h : rest <:+: s) :
    Unbroken (headerNode rest).value ∧ (headerNode rest).value.length ≤ s.length := by
  have hpart : (headerNode rest).value <:+: s :=
    (headerNode_value_isPrefix rest).isInfix.trans ((List.drop_suffix _ _).isInfix.trans h)
  have hbreak : ∀ c ∈ (headerNode rest).value, (!isLineBreak c) = true := by
    intro c hc
    unfold headerNode at hc
    dsimp only at hc
    split_ifs at hc
    · exact List.mem_takeWhile_imp (p := fun x => !isLineBreak x) (List.mem_of_mem_drop hc)
    · exact List.mem_takeWhile_imp (p := fun x => !isLineBreak x) hc
  refine ⟨fun c hc => ⟨?_, ?_, ?_⟩, hpart.length_le⟩
  · rintro rfl
    exact absurd (hbreak 13 hc) (by decide)
  · rintro rfl
    exact absurd (hbreak 10 hc) (by decide)
  · rintro rfl
    exact hs (hpart.subset hc)

end Unbroken

/-! ### The record that is logged -/

/-- A record that `processRequest` is called with: there are no headers yet, and what is left of an
earlier call is short and has no line breaks. -/
structure Unparsed (c : QueueConnectionElementType) : Prop where
  requestHeaders : c.requestHeaders = []
  path : ∀ path ∈ c.path, Unbroken path ∧ path.length < bufferRequestSize
  protocolVersion : Unbroken c.protocolVersion ∧ c.protocolVersion.length < 9
  ip : Unbroken c.ip ∧ c.ip.length < 46
  requestBody : ∀ body ∈ c.requestBody, body.length < bufferRequestSize

/-- A record as `processRequest` leaves it. -/
structure Loggable (c : QueueConnectionElementType) : Prop where
  scheme : c.scheme = bytes "http"
  requestHeaders : ∀ header ∈ c.requestHeaders,
    Unbroken header.value ∧ header.value.length < bufferRequestSize
  path : ∀ path ∈ c.path, Unbroken path ∧ path.length < bufferRequestSize
  protocolVersion : Unbroken c.protocolVersion ∧ c.protocolVersion.length < 9
  ip : Unbroken c.ip ∧ c.ip.length < 46
  requestBody : ∀ body ∈ c.requestBody, body.length < bufferRequestSize

/-- There is an end of headers behind the request line. -/
def HeadersEnd (block : Bytes) : Prop :=
  ∃ firstLineLength, strstr crlf (cString block) = some firstLineLength ∧
    crlfcrlf <:+: (cString block).drop (firstLineLength + 2)

section Record

variable {options : Options} {env : RequestEnv} {c c' : QueueConnectionElementType} {valid : Bool}
  {block text method path protocolVersion : Bytes} {logEnv : LogEnv}

theorem unbroken_nil : Unbroken [] := fun _ h => absurd h List.not_mem_nil

theorem unparsed_freshConnection (fd : ℕ) (now : ℤ) (mem : RequestBlock) (buffer : Option Bytes) :
    Unparsed { freshConnection fd now mem with requestBuffer := buffer } where
  requestHeaders := rfl
  path := fun _ h => absurd h (Option.not_mem_none _)
  protocolVersion := ⟨unbroken_nil, Nat.zero_lt_succ _⟩
  ip := ⟨unbroken_nil, Nat.zero_lt_succ _⟩
  requestBody := fun _ h => absurd h (Option.not_mem_none _)

theorem Unparsed.recvRequestTurn (h : Unparsed c) {r : RecvResult} {repeats : Bool}
    (hturn : recvRequestTurn c r = some (c', repeats)) : Unparsed c' := by
  obtain ⟨buffer, offset, state, -, rfl⟩ := recvRequestTurn_inv hturn
  exact ⟨h.requestHeaders, h.path, h.protocolVersion, h.ip, h.requestBody⟩

/-- What `recvRequest` leaves, whatever `recv` returns, is a record to be processed. -/
theorem unparsed_of_exec {fd : ℕ} {now : ℤ} {mem : RequestBlock} {script : List RecvResult}
    {receiver : Receiver} (h : exec Receiver.next (.start fd now mem) script = some receiver) :
    Unparsed receiver.connection := by
  have hstep : ∀ (receiver : Receiver) (r : RecvResult) (receiver' : Receiver),
      receiver.next r = some receiver' → Unparsed receiver.connection →
        Unparsed receiver'.connection := by
    intro receiver r receiver' hnext hc
    unfold Receiver.next at hnext
    split at hnext
    · obtain ⟨turn, hturn, rfl⟩ := Option.map_eq_some_iff.mp hnext
      exact hc.recvRequestTurn hturn
    · exact Option.some.inj hnext ▸ hc
  refine (run_of_exec h).invariant ?_ hstep
  exact unparsed_freshConnection fd now mem (some mem.val)

theorem Loggable.unparsed (h : Loggable c) (hheaders : c.requestHeaders = []) : Unparsed c :=
  ⟨hheaders, h.path, h.protocolVersion, h.ip, h.requestBody⟩

theorem Unparsed.loggable (h : Unparsed c) (buffer : Option Bytes) :
    Loggable { c with scheme := bytes "http", requestBuffer := buffer } where
  scheme := rfl
  requestHeaders := by
    rw [h.requestHeaders]
    exact fun _ hheader => absurd hheader List.not_mem_nil
  path := h.path
  protocolVersion := h.protocolVersion
  ip := h.ip
  requestBody := h.requestBody

theorem processHeaders_loggable (hnul : (0 : UInt8) ∉ text) (hshort : text.length < bufferRequestSize)
    (firstLineLength : ℕ) (h : Loggable c) : Loggable (processHeaders text firstLineLength c) := by
  unfold processHeaders
  dsimp only
  split
  · exact h
  · refine ⟨h.scheme, fun header hheader => ?_, h.path, h.protocolVersion, h.ip,
      fun body hbody => ?_⟩
    · rw [headersLoop_eq] at hheader
      rcases List.mem_append.mp hheader with hnew | hold
      · obtain ⟨rest, hrest, rfl⟩ := List.mem_map.mp (List.mem_reverse.mp hnew)
        have hpart : rest <:+: text := (mem_strtok hrest).1.isInfix.trans
          ((List.take_prefix _ _).isInfix.trans (List.drop_suffix _ _).isInfix)
        obtain ⟨hvalue, hlength⟩ := unbroken_headerNode hnul hpart
        exact ⟨hvalue, hlength.trans_lt hshort⟩
      · exact h.requestHeaders header hold
    · dsimp only at hbody
      split at hbody
      · exact h.requestBody body hbody
      · obtain rfl := Option.some.inj hbody
        simp only [List.length_drop]
        omega

theorem length_inetNtoa (a b c d : UInt8) : (inetNtoa a b c d).length < 46 := by
  have hdigits : ∀ x : UInt8, (toString x.toNat).length ≤ 3 := by
    intro x
    have hx := x.toNat_lt
    exact (Nat.length_repr_le_iff (by decide)).mpr (by omega)
  have ha := hdigits a
  have hb := hdigits b
  have hc := hdigits c
  have hd := hdigits d
  have hdot : (bytes ".").length = 1 := by decide
  unfold inetNtoa
  simp only [List.length_append, length_bytes, hdot]
  omega

/-- Whatever the request, the record can be logged. -/
theorem processRequest_loggable (options : Options) (hc : Unparsed c)
    (hblock : c.requestBuffer = some block) (hshort : (cString block).length < bufferRequestSize)
    (hline : RequestLine block method path protocolVersion)
    (hpeer : ∀ ip ∈ env.peer, ∃ a b c d, ip = inetNtoa a b c d) :
    ∃ valid c', processRequest options env c = some (valid, c') ∧ Loggable c' := by
  obtain ⟨firstLineLength, hcrlf, hwords, hmethod, hpath, hversion⟩ := hline
  have hnul : (0 : UInt8) ∉ cString block := nul_notMem_cString block
  have hnulLine : (0 : UInt8) ∉ (cString block).take firstLineLength :=
    fun h => hnul (List.mem_of_mem_take h)
  have hword : ∀ word ∈ [method, path, protocolVersion], Unbroken word := fun word h =>
    unbroken_word hnulLine (hwords ▸ h)
  have hpathShort : path.length < bufferRequestSize := by
    have hmem : path ∈ scanWords 3 ((cString block).take firstLineLength) := by
      rw [hwords]
      simp
    have hle := (mem_scanWords hmem).1.length_le
    rw [List.length_take] at hle
    omega
  unfold processRequest
  simp only [hblock, Option.bind_eq_bind, Option.bind_some]
  cases hip : env.peer with
  | none => exact ⟨_, _, rfl, hc.loggable _⟩
  | some ip =>
    have hipText : Unbroken ip ∧ ip.length < 46 := by
      obtain ⟨a₁, a₂, a₃, a₄, hform⟩ := hpeer ip hip
      rw [hform]
      exact ⟨unbroken_inetNtoa a₁ a₂ a₃ a₄, length_inetNtoa a₁ a₂ a₃ a₄⟩
    simp only [hcrlf, scanRequestLine_eq hwords hmethod hpath hversion, Option.bind_some]
    -- the record with the request line parsed
    have hparsed : ∀ absolutePath, Loggable { c with
        requestBuffer := some block
        scheme := bytes "http"
        ip := ip
        path := some path
        method := strToMethod method
        protocolVersion := protocolVersion
        absolutePath := absolutePath } := by
      intro absolutePath
      refine ⟨rfl, (hc.loggable none).requestHeaders, fun p hp => ?_, ⟨hword _ (by simp), hversion⟩,
        hipText, hc.requestBody⟩
      obtain rfl := Option.some.inj hp
      exact ⟨hword _ (by simp), hpathShort⟩
    split
    · exact ⟨_, _, rfl, hparsed c.absolutePath⟩
    · exact ⟨_, _, rfl, processHeaders_loggable hnul hshort _ (hparsed _)⟩

theorem Loggable.header (h : Loggable c) (name : Bytes) :
    Unbroken ((getHeader c.requestHeaders name).getD []) ∧
      ((getHeader c.requestHeaders name).getD []).length < bufferRequestSize := by
  unfold getHeader
  cases hfind : c.requestHeaders.find? (·.name == name) with
  | none => exact ⟨unbroken_nil, by decide⟩
  | some header => exact h.requestHeaders header (List.mem_of_find?_eq_some hfind)

theorem Loggable.printed (h : Loggable c) :
    Unbroken (printedString c.path) ∧ (printedString c.path).length < bufferRequestSize := by
  unfold printedString
  cases hp : c.path with
  | none => exact ⟨unbroken_texts _ (by simp), by decide⟩
  | some path => exact h.path path hp

theorem Loggable.url (h : Loggable c) :
    Unbroken (requestUrl c) ∧ (requestUrl c).length < requestPathMaxSize := by
  obtain ⟨hpath, hpathLength⟩ := h.printed
  have hsize : bufferRequestSize + bufferRequestSize + 7 < requestPathMaxSize := by decide
  unfold requestUrl
  split
  · rename_i host hhost
    have hscheme : Unbroken (bytes "http" ++ bytes "://") :=
      unbroken_append.mpr ⟨unbroken_texts _ (by simp), unbroken_texts _ (by simp)⟩
    have hschemeLength : (bytes "http" ++ bytes "://").length = 7 := by decide
    obtain ⟨hvalue, hvalueLength⟩ := h.header (bytes "host")
    rw [hhost, Option.getD_some] at hvalue hvalueLength
    rw [h.scheme]
    refine ⟨unbroken_append.mpr ⟨unbroken_append.mpr ⟨hscheme, hvalue⟩, hpath⟩, ?_⟩
    rw [List.length_append, List.length_append, hschemeLength]
    omega
  · cases hp : c.path with
    | none => exact ⟨unbroken_texts _ (by simp), by decide⟩
    | some path =>
      obtain ⟨hbreak, hlength⟩ := h.path path hp
      exact ⟨hbreak, by rw [Option.getD_some]; omega⟩

/-- The call of `logRequest`: its message is short and has no line breaks. -/
theorem logRequest_eq (h : Loggable c) :
    ∃ message, logRequest c = some (logInfo 221 message) ∧ Unbroken message ∧
      message.length < 2 ^ 13 := by
  obtain ⟨hurl, hfits⟩ := h.url
  obtain ⟨hpath, hpathLength⟩ := h.printed
  obtain ⟨hagent, hagentLength⟩ := h.header (bytes "user-agent")
  obtain ⟨hreferer, hrefererLength⟩ := h.header (bytes "referer")
  obtain ⟨hversion, hversionLength⟩ := h.protocolVersion
  obtain ⟨hip, hipLength⟩ := h.ip
  have hmethodLength : (methodToStr c.method).length < 12 := by cases c.method <;> decide
  refine ⟨_, by rw [logRequest, fits_of_lt hfits, Option.map_some], ?_, ?_⟩
  · have hfixed := unbroken_texts
    simp only [List.forall_mem_cons] at hfixed
    simp only [unbroken_append, hfixed, unbroken_methodToStr, hpath, hversion, unbroken_nat, hip,
      hurl, hreferer, hagent, and_self]
  · have hdigits : (toString (c.requestBody.getD []).length).length ≤ 4 := by
      have hbody : (c.requestBody.getD []).length < bufferRequestSize := by
        cases hb : c.requestBody with
        | none => decide
        | some body => exact h.requestBody body hb
      exact (Nat.length_repr_le_iff (by decide)).mpr (hbody.trans (by decide))
    have hfixed : (bytes "Request | \"").length = 11 ∧ (bytes " ").length = 1 ∧
        (bytes "\" - ").length = 4 ∧ (bytes " - ").length = 3 ∧ (bytes " - \"").length = 4 ∧
        (bytes "\"").length = 1 := by decide
    have hsizes : bufferRequestSize = 1024 ∧ requestPathMaxSize = 4096 := ⟨rfl, rfl⟩
    simp only [List.length_append, hfixed, length_bytes _]
    omega

/-- A call with a short message without line breaks appends one line. -/
theorem logged_logInfo (logEnv : LogEnv) (codeLine : ℤ) {message : Bytes}
    (hmessage : Unbroken message) (hlength : message.length < 2 ^ 13)
    (hcodeLine : (toString codeLine).length ≤ 11) :
    ∃ line, logged logEnv [logInfo codeLine message] = some (line ++ [10]) ∧ (10 : UInt8) ∉ line := by
  have hfile : (10 : UInt8) ∉ requestFile ∧ requestFile.length = 13 := by decide
  have hfixed : (bytes " | ").length = 3 ∧ (bytes ":").length = 1 ∧
      (loggerLevelToStr .info).length = 4 := by decide
  have hfits : logEnv.Fits (message.length + 1)
      (logRecord logEnv .info false requestFile codeLine message).length := by
    have hdatetime := logEnv.datetime_fits
    have hstack := logEnv.stack_left
    have hmax : 2 ^ 13 + 100 ≤ intMax := by decide
    unfold LogEnv.Fits logRecord
    rw [if_neg (fun h => Bool.false_ne_true h.2), List.append_nil]
    simp only [List.length_append, hfixed, hfile.2, length_bytes (toString codeLine),
      List.length_singleton]
    omega
  obtain ⟨line, hrecord, hnewline⟩ :
      ∃ line, logRecord logEnv .info false requestFile codeLine message = line ++ [10] ∧
        (10 : UInt8) ∉ line := logRecord_line hmessage.notMem.2.1 hfile.1
  refine ⟨line, ?_, hnewline⟩
  unfold logged logInfo
  dsimp only
  rw [logMessage_eq hmessage.notMem.2.2, if_pos hfits, hrecord]
  exact congrArg some (List.append_nil _)

/-- What `processRequest` itself logs: nothing for a request that it parses to the end. -/
theorem processRequestLog_eq (env : RequestEnv) (hblock : c.requestBuffer = some block)
    (hline : RequestLine block method path protocolVersion) :
    ∃ calls, processRequestLog env c = some calls ∧ (∀ call ∈ calls, Unbroken call.message) ∧
      calls.length ≤ 1 ∧
      (calls = [] ↔ env.peer.isSome ∧ strToMethod method ≠ .unsupported ∧ HeadersEnd block) := by
  obtain ⟨firstLineLength, hcrlf, hwords, hmethod, hpath, hversion⟩ := hline
  have hone : ∀ call : LogCall, Unbroken call.message →
      (∀ x ∈ [call], Unbroken x.message) ∧ [call].length ≤ 1 := fun call h =>
    ⟨fun x hx => List.mem_singleton.mp hx ▸ h, le_rfl⟩
  have hends : HeadersEnd block ↔
      (strstr crlfcrlf ((cString block).drop (firstLineLength + 2))).isSome := by
    rw [strstr_isSome]
    constructor
    · rintro ⟨n, hn, hpart⟩
      obtain rfl := Option.some.inj (hcrlf.symm.trans hn)
      exact hpart
    · exact fun hpart => ⟨firstLineLength, hcrlf, hpart⟩
  unfold processRequestLog
  simp only [hblock, Option.bind_eq_bind, Option.bind_some]
  cases hip : env.peer with
  | none =>
    obtain ⟨hmessage, hlength⟩ := hone (logError 73 (bytes "getpeername failed"))
      (unbroken_texts (bytes "getpeername failed") (by simp))
    exact ⟨_, rfl, hmessage, hlength, iff_of_false (List.cons_ne_nil _ _) fun h =>
      Bool.false_ne_true h.1⟩
  | some ip =>
    simp only [hcrlf, scanRequestLine_eq hwords hmethod hpath hversion, Option.bind_some]
    split
    · rename_i hunsupported
      have hname : Unbroken method := unbroken_word
        (fun h => nul_notMem_cString block (List.mem_of_mem_take h)) (by rw [hwords]; simp)
      obtain ⟨hmessage, hlength⟩ := hone (logError 104 (bytes "UNSUPPORTED method " ++ method))
        (unbroken_append.mpr ⟨unbroken_texts (bytes "UNSUPPORTED method ") (by simp), hname⟩)
      exact ⟨_, rfl, hmessage, hlength, iff_of_false (List.cons_ne_nil _ _) fun h =>
        h.2.1 hunsupported⟩
    · rename_i hsupported
      cases hend : strstr crlfcrlf ((cString block).drop (firstLineLength + 2)) with
      | none =>
        obtain ⟨hmessage, hlength⟩ := hone (logInfo 128 (bytes "Request without headers"))
          (unbroken_texts (bytes "Request without headers") (by simp))
        refine ⟨_, rfl, hmessage, hlength, iff_of_false (List.cons_ne_nil _ _) fun h => ?_⟩
        rw [hends, hend] at h
        exact Bool.false_ne_true h.2.2
      | some end' =>
        refine ⟨_, rfl, fun _ h => absurd h List.not_mem_nil, Nat.zero_le _, iff_of_true rfl ?_⟩
        rw [hends, hend]
        exact ⟨rfl, hsupported, rfl⟩

/-- **No log injection.** Whatever the header lines and the body, the call of `logRequest` appends one
line to the log; `processRequest` makes at most one other call. -/
theorem logRequest_oneLine (options : Options) (logEnv : LogEnv) (hc : Unparsed c)
    (hblock : c.requestBuffer = some block)
    (hshort : (cString block).length ≤ bufferRequestSize - 1)
    (hline : RequestLine block method path protocolVersion)
    (hpeer : ∀ ip ∈ env.peer, ∃ a b c d, ip = inetNtoa a b c d) :
    ∃ valid c' call text calls, processRequest options env c = some (valid, c') ∧
      (requestUrl c').length < requestPathMaxSize ∧ logRequest c' = some call ∧
      (13 : UInt8) ∉ call.message ∧ (10 : UInt8) ∉ call.message ∧
      logged logEnv [call] = some text ∧ lineCount text = 1 ∧ text.getLast? = some 10 ∧
      processRequestLog env c = some calls ∧
      (∀ other ∈ calls, (13 : UInt8) ∉ other.message ∧ (10 : UInt8) ∉ other.message) ∧
      calls.length ≤ 1 ∧
      (calls = [] ↔ env.peer.isSome ∧ strToMethod method ≠ .unsupported ∧ HeadersEnd block) := by
  have hsize : 0 < bufferRequestSize := by decide
  obtain ⟨valid, c', hprocess, hloggable⟩ :=
    processRequest_loggable options hc hblock (by omega) hline hpeer
  obtain ⟨message, hcall, hmessage, hlength⟩ := logRequest_eq hloggable
  obtain ⟨line, htext, hnewline⟩ := logged_logInfo logEnv 221 hmessage hlength
    (by decide)
  obtain ⟨calls, hcalls, hothers, hnone⟩ := processRequestLog_eq env hblock hline
  refine ⟨valid, c', _, _, calls, hprocess, hloggable.url.2, hcall, hmessage.notMem.1,
    hmessage.notMem.2.1, htext, ?_, List.getLast?_concat, hcalls,
    fun other h => ⟨(hothers other h).notMem.1, (hothers other h).notMem.2.1⟩, hnone⟩
  unfold lineCount
  rw [List.count_append, List.count_eq_zero_of_not_mem hnewline]
  rfl

end Record

/-! ### Requests at the site -/

theorem inetNtoa_localEnv : ∀ ip ∈ localEnv.peer, ∃ a b c d, ip = inetNtoa a b c d := by
  intro ip hip
  obtain rfl := Option.some.inj hip
  exact ⟨127, 0, 0, 1, by decide +kernel⟩

/-- A record with a request received. -/
def siteConnection (request : Bytes) : QueueConnectionElementType :=
  { freshConnection 5 0 .zeroed with requestBuffer := some (request ++ [0]) }

theorem unparsed_siteConnection (request : Bytes) : Unparsed (siteConnection request) :=
  unparsed_freshConnection 5 0 .zeroed (some (request ++ [0]))

/-- Lines that end in a lone LF, and a header line without a colon. -/
def forgingRequest : Bytes :=
  bytes "GET /a HTTP/1.1\r\nhost: x\nforged: y\r\nreferer\r\n2024 | INFO\r\n\r\nbody\n2024 | INFO\n"

theorem logRequest_oneLine_forging :
    ∃ valid c' call text,
      processRequest wwwOptions localEnv (siteConnection forgingRequest) = some (valid, c') ∧
      logRequest c' = some call ∧ logged localLogEnv [call] = some text ∧ lineCount text = 1 := by
  have hline : RequestLine (forgingRequest ++ [0]) (bytes "GET") (bytes "/a") (bytes "HTTP/1.1") :=
    ⟨15, by decide +kernel⟩
  obtain ⟨valid, c', call, text, -, hprocess, -, hcall, -, -, htext, hcount, -⟩ :=
    logRequest_oneLine wwwOptions localLogEnv (unparsed_siteConnection forgingRequest) rfl
      (by decide +kernel) hline inetNtoa_localEnv
  exact ⟨valid, c', call, text, hprocess, hcall, htext, hcount⟩

/-- A request without headers. -/
def barestRequest : Bytes := bytes "GET / HTTP/1.1\r\n\r\n"

/-- `processRequest` logs a line of its own for a request without headers. -/
theorem barestRequest_twoLines :
    ¬ ∀ (options : Options) (env : RequestEnv) (logEnv : LogEnv) (c : QueueConnectionElementType)
      (block method path protocolVersion : Bytes), Unparsed c → c.requestBuffer = some block →
        (cString block).length ≤ bufferRequestSize - 1 →
        RequestLine block method path protocolVersion →
        (∀ ip ∈ env.peer, ∃ a b c d, ip = inetNtoa a b c d) →
        ∃ valid c' call calls text, processRequest options env c = some (valid, c') ∧
          logRequest c' = some call ∧ processRequestLog env c = some calls ∧
          logged logEnv (calls ++ [call]) = some text ∧ lineCount text = 1 := by
  intro h
  have hline : RequestLine (barestRequest ++ [0]) (bytes "GET") (bytes "/") (bytes "HTTP/1.1") :=
    ⟨14, by decide +kernel⟩
  obtain ⟨valid, c', call, calls, text, hprocess, hcall, hcalls, htext, hcount⟩ :=
    h wwwOptions localEnv localLogEnv (siteConnection barestRequest) _ _ _ _
      (unparsed_siteConnection barestRequest) rfl (by decide +kernel) hline inetNtoa_localEnv
  have hlines : ((processRequest wwwOptions localEnv (siteConnection barestRequest)).bind
      fun r => (logRequest r.2).bind fun call =>
        (processRequestLog localEnv (siteConnection barestRequest)).bind fun calls =>
          (logged localLogEnv (calls ++ [call])).map lineCount) = some 2 := by decide +kernel
  rw [hprocess, Option.bind_some, hcall, Option.bind_some, hcalls, Option.bind_some, htext,
    Option.map_some, hcount] at hlines
  cases hlines

end UbServer

import UbServer.Request
import UbServer.Lib.Paths

/-!
# Building and sending a response

`response.c` and `sendAll` of `helper.c`. What the file system holds is a `Disk`; what `makeResponse`
gets from other calls is a `ResponseEnv`. One turn of a sending loop takes what `send` or `sendfile`
returned and gives the bytes the kernel accepted. A result `none` is `die` or undefined behaviour.
-/

namespace UbServer

open CString

/-- Subtraction of `size_t`. -/
def sizeSub (a b : ℕ) : ℕ := (a + 2 ^ 64 - b) % 2 ^ 64

theorem sizeSub_of_le {a b : ℕ} (h : b ≤ a) (ha : a < 2 ^ 64) : sizeSub a b = a - b := by
  unfold sizeSub
  omega

/-! ### `snprintf` -/

/-- The string in an array, and the offset that the calls of `snprintf` have added up. -/
structure Printed where
  text : Bytes
  offset : ℕ

/-- `offset += snprintf(array + offset, size - offset, ..)`. What does not fit is cut off but
counted; an offset past the array makes `size - offset` wrap around. -/
def Printed.append (size : ℕ) (printed : Printed) (text : Bytes) : Option Printed :=
  if size < printed.offset then none
  else some
    { text := printed.text ++ text.take (size - printed.offset - 1)
      offset := printed.offset + text.length }

def printAll (size : ℕ) (texts : List Bytes) : Option Printed :=
  texts.foldlM (Printed.append size) ⟨[], 0⟩

theorem foldlM_append_of_lt {size : ℕ} (texts : List Bytes) (text : Bytes)
    (h : (text ++ texts.flatten).length < size) :
    texts.foldlM (Printed.append size) ⟨text, text.length⟩ =
      some ⟨text ++ texts.flatten, (text ++ texts.flatten).length⟩ := by
  induction texts generalizing text with
  | nil => simp
  | cons t texts ih =>
    rw [List.flatten_cons, ← List.append_assoc] at h ⊢
    have hfit : t.take (size - text.length - 1) = t := by
      rw [List.length_append, List.length_append] at h
      exact List.take_of_length_le (by omega)
    have hstep : Printed.append size ⟨text, text.length⟩ t =
        some ⟨text ++ t, (text ++ t).length⟩ := by
      unfold Printed.append
      rw [List.length_append, List.length_append] at h
      rw [if_neg (by simp only; omega)]
      simp only [hfit, List.length_append]
    rw [List.foldlM_cons, hstep]
    exact ih _ h

/-- Texts that fit are printed one behind the other. -/
theorem printAll_of_lt {size : ℕ} {texts : List Bytes} (h : texts.flatten.length < size) :
    printAll size texts = some ⟨texts.flatten, texts.flatten.length⟩ :=
  foldlM_append_of_lt texts [] h

/-- At each call the offset is where the text printed so far ends, and what is printed next fits. -/
theorem printAll_before {size : ℕ} {texts : List Bytes} (h : texts.flatten.length < size)
    {before after : List Bytes} {text : Bytes} (e : texts = before ++ text :: after) :
    printAll size before = some ⟨before.flatten, before.flatten.length⟩ ∧
      before.flatten.length + text.length < size := by
  have hlength : texts.flatten.length =
      before.flatten.length + (text.length + after.flatten.length) := by
    rw [e, List.flatten_append, List.length_append, List.flatten_cons, List.length_append]
  exact ⟨printAll_of_lt (by omega), by omega⟩

/-! ### Files -/

inductive OpenError where
  | enoent | other
  deriving DecidableEq, Repr

/-- A file that `open` finds, with the times that `fstat` gives. -/
structure File where
  content : Bytes
  stAtime : ℤ
  stMtime : ℤ
  deriving DecidableEq, Repr

/-- The place to which the kernel resolves a path, and what is at each place. The spellings of one
path have one place. -/
structure Disk where
  place : Bytes → Paths.Place Bytes
  file : Paths.Place Bytes → Except OpenError File

def Disk.openFile (disk : Disk) (path : Bytes) : Except OpenError File := disk.file (disk.place path)

def Disk.setFile (disk : Disk) (path : Bytes) (file : Except OpenError File) : Disk :=
  { disk with file := Function.update disk.file (disk.place path) file }

/-- What is read at a place. -/
def Disk.contentAt (disk : Disk) (place : Paths.Place Bytes) : Option Bytes :=
  (disk.file place).toOption.map File.content

theorem contentAt_setFile {disk : Disk} {path : Bytes} (file : File) :
    (disk.setFile path (.ok file)).contentAt (disk.place path) = some file.content := by
  unfold Disk.contentAt Disk.setFile
  simp only [Function.update_self]
  rfl

theorem contentAt_setFile_of_ne {disk : Disk} {path : Bytes} {place : Paths.Place Bytes}
    {file : Except OpenError File} (h : place ≠ disk.place path) :
    (disk.setFile path file).contentAt place = disk.contentAt place := by
  unfold Disk.contentAt Disk.setFile
  simp only [Function.update_of_ne h]

/-- The `st_size` of a file, if it is an `off_t`. -/
def stSize (content : Bytes) : Option ℕ :=
  if content.length < 2 ^ 63 then some content.length else none

theorem stSize_inv {content : Bytes} {n : ℕ} (h : stSize content = some n) :
    n = content.length ∧ n < 2 ^ 63 := by
  unfold stSize at h
  split at h
  · obtain rfl := Option.some.inj h
    exact ⟨rfl, ‹_›⟩
  · cases h

/-- What `makeResponse` gets from calls other than those on files: what `logError` leaves in `errno`,
the descriptors that `open` returns, `getcwd`, `libmagic`, the directories, `zlib`, and the clock with
its formatted times. -/
structure ResponseEnv where
  errnoAfterLog : OpenError → OpenError
  bodyFd : ℕ
  gzipFd : ℕ
  cwd : Option Bytes
  magicLoads : Bool
  magicDescriptor : Option Bytes
  isDirectory : Bytes → Bool
  mkdirs : Bool
  gzopens : Bool
  gzip : Bytes → Bytes
  strftime : ℤ → Bytes
  now : ℤ

def httpStatusCode : HttpStatusCode → ℕ
  | .ok => 200
  | .notFound => 404
  | .internalServerError => 500

def httpStatusReason : HttpStatusCode → Bytes
  | .ok => bytes "OK"
  | .notFound => bytes "Not Found"
  | .internalServerError => bytes "Internal Server Error"

/-! ### `makeResponse` -/

/-- The error page for the `errno` that is tested, with the status. -/
def errorPage : OpenError → Bytes × HttpStatusCode
  | .enoent => (bytes "/error/404.html", .notFound)
  | .other => (bytes "/error/error.html", .internalServerError)

/-- The resource of a path: its file or the error page, with the path that is opened for it. -/
def selectResource (options : Options) (env : ResponseEnv) (disk : Disk) (absolutePath : Bytes) :
    Option (Bytes × File × HttpStatusCode) :=
  match disk.openFile absolutePath with
  | .ok file => some (absolutePath, file, .ok)
  | .error errno =>
    -- `errno` is tested after `logError` has written its record
    let page := errorPage (env.errnoAfterLog errno)
    let errorPath := options.htmlDir ++ page.1
    -- "Error template not found"
    (disk.openFile errorPath).toOption.map fun file => (errorPath, file, page.2)

/-- `strcmp(a, b) > 0`. -/
def strcmpGt (a b : Bytes) : Bool := b < a

def getMimeType (env : ResponseEnv) : Option Bytes := do
  let cwd ← env.cwd
  let _ ← fits 1024 (cwd ++ bytes "/include/web.magic.mgc:/usr/share/misc/magic.mgc")
  if env.magicLoads then
    let mimeType ← fits 150 (← env.magicDescriptor)
    if strcmpGt mimeType (bytes "text/") then fits 150 (mimeType ++ bytes "; charset=UTF-8")
    else some mimeType
  else none

/-- The content type is what `libmagic` says, with a charset behind it or without. -/
theorem getMimeType_inv {env : ResponseEnv} {mimeType : Bytes} (h : getMimeType env = some mimeType) :
    ∃ descriptor ∈ env.magicDescriptor,
      (mimeType = descriptor ∨ mimeType = descriptor ++ bytes "; charset=UTF-8") ∧
        mimeType.length < 150 := by
  unfold getMimeType at h
  obtain ⟨cwd, -, h⟩ := Option.bind_eq_some_iff.mp h
  obtain ⟨-, -, h⟩ := Option.bind_eq_some_iff.mp h
  split at h
  · obtain ⟨descriptor, hdescriptor, h⟩ := Option.bind_eq_some_iff.mp h
    obtain ⟨type, htype, h⟩ := Option.bind_eq_some_iff.mp h
    obtain ⟨htext, hlength⟩ := fits_inv htype
    refine ⟨descriptor, hdescriptor, ?_⟩
    split at h
    · obtain ⟨hmime, hlength'⟩ := fits_inv h
      exact ⟨Or.inr (by rw [hmime, htext]), hlength'⟩
    · obtain rfl := Option.some.inj h
      exact ⟨Or.inl htext, hlength⟩
  · cases h

theorem getMimeType_length {env : ResponseEnv} {mimeType : Bytes} (h : getMimeType env = some mimeType) :
    mimeType.length < 150 := by
  obtain ⟨descriptor, -, -, hlength⟩ := getMimeType_inv h
  exact hlength

/-- A byte that is neither in what `libmagic` says nor in the charset is not in the content type. -/
theorem notMem_getMimeType {env : ResponseEnv} {mimeType : Bytes} {b : UInt8}
    (hmagic : ∀ descriptor ∈ env.magicDescriptor, b ∉ descriptor)
    (hcharset : b ∉ bytes "; charset=UTF-8") (h : getMimeType env = some mimeType) : b ∉ mimeType := by
  obtain ⟨descriptor, hdescriptor, hmime, -⟩ := getMimeType_inv h
  rcases hmime with rfl | rfl
  · exact hmagic _ hdescriptor
  · rw [List.mem_append, not_or]
    exact ⟨hmagic _ hdescriptor, hcharset⟩

/-- Whether `makeDirectory` succeeds. It copies the path of a directory to be made into an array of
`CHAR_MAX` bytes. -/
def makeDirectory (env : ResponseEnv) (path : Bytes) : Option Bool :=
  if env.isDirectory path then some true
  else (fits 127 path).map fun _ => env.mkdirs

/-- The name of the compressed copy of a file opened with the given access time. -/
def gzipPathOf (options : Options) (env : ResponseEnv) (absolutePath : Bytes) (stAtime : ℤ) :
    Option Bytes := do
  -- "File name not found in absolute path"
  let slash ← strrchr absolutePath 47
  let fileName := absolutePath.drop (slash + 1)
  let cwd ← env.cwd
  let relativePathFile ← fits absolutePath.length (absolutePath.drop options.htmlDir.length)
  if fileName.length ≤ relativePathFile.length then
    let relativePath := relativePathFile.take (relativePathFile.length - fileName.length)
    let pathGzipCache := cwd ++ bytes "/cache/gzip" ++ relativePath
    if ← makeDirectory env pathGzipCache then
      return pathGzipCache ++ bytes (toString stAtime) ++ bytes "-" ++ fileName ++ bytes ".gz"
    else none
  else none -- the array for the relative path has a negative length

/-- A connection with its response built, the file behind `bodyFd`, and the disk. -/
structure Built where
  connection : QueueConnectionElementType
  body : Bytes
  disk : Disk

/-- The content of the compressed copy at a path, which is made if nothing is there yet. -/
def gzipCopy (env : ResponseEnv) (disk : Disk) (gzipPath content : Bytes) : Option (Bytes × Disk) :=
  match disk.openFile gzipPath with
  | .ok copy => some (copy.content, disk)
  | .error .enoent =>
    if env.gzopens then
      let body := env.gzip content
      some (body, disk.setFile gzipPath (.ok ⟨body, env.now, env.now⟩))
    else none -- "Error opening gzip file"
  | .error .other => none -- "Error opening gzip file"

/-- The copy is the one that lies at its place, or nothing lies there and it is made. -/
theorem gzipCopy_inv {env : ResponseEnv} {disk disk' : Disk} {gzipPath content body : Bytes}
    (h : gzipCopy env disk gzipPath content = some (body, disk')) :
    (disk.contentAt (disk.place gzipPath) = some body ∧ disk' = disk) ∨
    (disk.contentAt (disk.place gzipPath) = none ∧ body = env.gzip content ∧
      disk' = disk.setFile gzipPath (.ok ⟨body, env.now, env.now⟩)) := by
  unfold gzipCopy Disk.openFile at h
  unfold Disk.contentAt
  split at h
  · rename_i copy hcopy
    obtain ⟨rfl, rfl⟩ := Prod.mk.inj (Option.some.inj h)
    rw [hcopy]
    exact Or.inl ⟨rfl, rfl⟩
  · rename_i hnone
    split at h
    · obtain ⟨rfl, rfl⟩ := Prod.mk.inj (Option.some.inj h)
      rw [hnone]
      exact Or.inr ⟨rfl, rfl, rfl⟩
    · cases h
  · cases h

theorem gzipCopy_place {env : ResponseEnv} {disk disk' : Disk} {gzipPath content body : Bytes}
    (h : gzipCopy env disk gzipPath content = some (body, disk')) : disk'.place = disk.place := by
  rcases gzipCopy_inv h with ⟨-, rfl⟩ | ⟨-, -, rfl⟩ <;> rfl

def makeContentEncoding (options : Options) (env : ResponseEnv) (disk : Disk) (file : File)
    (connection : QueueConnectionElementType) : Option Built := do
  let absolutePath ← connection.absolutePath
  let gzipPath ← gzipPathOf options env absolutePath file.stAtime
  let (body, disk) ← gzipCopy env disk gzipPath file.content
  let size ← stSize body
  let connection := { connection with
    bodyFd := env.gzipFd
    bodyLength := size
    contentEncoding := .gzip }
  return ⟨connection, body, disk⟩

/-- The test of `makeResponse` on the `accept-encoding` header. -/
def acceptsGzip (requestHeaders : List Header) : Bool :=
  (getHeader requestHeaders (bytes "accept-encoding")).any
    fun value => (strstr (bytes "gzip") value).isSome

/-- The lines of the response header, as `makeResponse` prints them. -/
def responseHeaderTexts (connection : QueueConnectionElementType)
    (mimeType lastModifiedDate currentDate : Bytes) : List Bytes :=
  [connection.protocolVersion ++ bytes " " ++
      bytes (toString (httpStatusCode connection.responseStatusCode)) ++ bytes " " ++
      httpStatusReason connection.responseStatusCode ++ bytes "\n"] ++
  (if connection.contentEncoding = .gzip then [bytes "content-encoding: gzip\n"] else []) ++
  (if asksKeepAlive connection.requestHeaders then
    [bytes "connection: keep-alive\n",
      bytes "keep-alive: timeout=" ++ bytes (toString keepAliveTimeout) ++ bytes "\n"]
  else [bytes "connection: close\n"]) ++
  [bytes "content-length: " ++ bytes (toString connection.bodyLength) ++ bytes "\n",
    bytes "content-type: " ++ mimeType ++ bytes "\n",
    bytes "date: " ++ currentDate ++ bytes "\n",
    bytes "last-modified: " ++ lastModifiedDate ++ bytes "\n",
    bytes "server: Undefined Behaviour Server\n",
    bytes "cache-control: private, no-cache, no-store, must-revalidate\n\n"]

/-- The body to be sent: the compressed copy if the request accepts it, else the file itself. -/
def encodeBody (options : Options) (env : ResponseEnv) (disk : Disk) (file : File)
    (connection : QueueConnectionElementType) : Option Built :=
  if acceptsGzip connection.requestHeaders then
    makeContentEncoding options env disk file connection
  else some ⟨connection, file.content, disk⟩

/-- `makeResponse` from the first `snprintf` on. -/
def responseHead (connection : QueueConnectionElementType)
    (mimeType lastModifiedDate currentDate : Bytes) : Option QueueConnectionElementType := do
  let printed ← printAll 1024
    (responseHeaderTexts connection mimeType lastModifiedDate currentDate)
  return { connection with
    keepAlive := asksKeepAlive connection.requestHeaders
    responseBufferHeadersOffset := 0
    responseBufferHeadersLength := printed.offset
    responseBufferHeaders := some printed.text }

def makeResponse (options : Options) (env : ResponseEnv) (disk : Disk)
    (connection : QueueConnectionElementType) : Option Built := do
  let absolutePath ← connection.absolutePath
  let (_, file, code) ← selectResource options env disk absolutePath
  let size ← stSize file.content
  let c₁ := { connection with
    responseStatusCode := code
    bodyFd := env.bodyFd
    bodyLength := size
    bodyOffset := 0 }
  let mimeType ← getMimeType env
  let built ← encodeBody options env disk file c₁
  let lastModifiedDate ← fits 100 (env.strftime file.stMtime)
  let currentDate ← fits 100 (env.strftime env.now)
  let headed ← responseHead built.connection mimeType lastModifiedDate currentDate
  return { built with connection := headed }

theorem length_bytes (s : String) : (bytes s).length = s.length := by
  rw [bytes, List.length_map, String.length_toList]

theorem length_responseHeaderTexts {connection : QueueConnectionElementType}
    {mimeType lastModifiedDate currentDate : Bytes}
    (hversion : connection.protocolVersion.length < 9) (hmime : mimeType.length < 150)
    (hmodified : lastModifiedDate.length < 100) (hcurrent : currentDate.length < 100)
    (hlength : connection.bodyLength < 2 ^ 64) :
    (responseHeaderTexts connection mimeType lastModifiedDate currentDate).flatten.length < 1024 := by
  have hdigits : (toString connection.bodyLength).length ≤ 20 :=
    (Nat.length_repr_le_iff (by decide)).mpr (by omega)
  have hcode : (toString (httpStatusCode connection.responseStatusCode)).length ≤ 3 := by
    cases connection.responseStatusCode <;> decide +kernel
  have hreason : (httpStatusReason connection.responseStatusCode).length ≤ 21 := by
    cases connection.responseStatusCode <;> decide +kernel
  have htimeout : (toString keepAliveTimeout).length = 2 := by decide +kernel
  -- the fixed parts of all lines that may be printed
  have hfixed : 2 * " ".length + 6 * "\n".length + "content-encoding: gzip\n".length +
      "connection: keep-alive\n".length + "keep-alive: timeout=".length +
      "connection: close\n".length + "content-length: ".length + "content-type: ".length +
      "date: ".length + "last-modified: ".length +
      "server: Undefined Behaviour Server\n".length +
      "cache-control: private, no-cache, no-store, must-revalidate\n\n".length ≤ 300 := by decide
  unfold responseHeaderTexts
  split <;> split <;>
  · simp only [List.flatten_append, List.flatten_cons, List.flatten_nil, List.length_append,
      List.length_nil, length_bytes]
    omega

theorem makeResponse_inv {options : Options} {env : ResponseEnv} {disk : Disk}
    {connection : QueueConnectionElementType} {built : Built}
    (h : makeResponse options env disk connection = some built) :
    ∃ absolutePath opened file code size mimeType lastModifiedDate currentDate printed encoded,
      connection.absolutePath = some absolutePath ∧
      selectResource options env disk absolutePath = some (opened, file, code) ∧
      stSize file.content = some size ∧ getMimeType env = some mimeType ∧
      encodeBody options env disk file { connection with
        responseStatusCode := code, bodyFd := env.bodyFd, bodyLength := size, bodyOffset := 0 } =
          some encoded ∧
      fits 100 (env.strftime file.stMtime) = some lastModifiedDate ∧
      fits 100 (env.strftime env.now) = some currentDate ∧
      printAll 1024 (responseHeaderTexts encoded.connection mimeType lastModifiedDate currentDate) =
        some printed ∧
      built = { encoded with connection := { encoded.connection with
        keepAlive := asksKeepAlive encoded.connection.requestHeaders
        responseBufferHeadersOffset := 0
        responseBufferHeadersLength := printed.offset
        responseBufferHeaders := some printed.text } } := by
  unfold makeResponse at h
  obtain ⟨absolutePath, hpath, h⟩ := Option.bind_eq_some_iff.mp h
  obtain ⟨⟨opened, file, code⟩, hfile, h⟩ := Option.bind_eq_some_iff.mp h
  obtain ⟨size, hsize, h⟩ := Option.bind_eq_some_iff.mp h
  obtain ⟨mimeType, hmime, h⟩ := Option.bind_eq_some_iff.mp h
  obtain ⟨encoded, hencoded, h⟩ := Option.bind_eq_some_iff.mp h
  obtain ⟨lastModifiedDate, hmodified, h⟩ := Option.bind_eq_some_iff.mp h
  obtain ⟨currentDate, hcurrent, h⟩ := Option.bind_eq_some_iff.mp h
  obtain ⟨headed, hheaded, h⟩ := Option.bind_eq_some_iff.mp h
  obtain ⟨printed, hprinted, hheaded⟩ := Option.bind_eq_some_iff.mp hheaded
  obtain rfl := Option.some.inj hheaded
  exact ⟨absolutePath, opened, file, code, size, mimeType, lastModifiedDate, currentDate, printed,
    encoded, hpath, hfile, hsize, hmime, hencoded, hmodified, hcurrent, hprinted,
    (Option.some.inj h).symm⟩

/-- The compressed copy takes the place of the file, or the file stays. -/
theorem encodeBody_cases {options : Options} {env : ResponseEnv} {disk : Disk} {file : File}
    {connection : QueueConnectionElementType} {built : Built}
    (h : encodeBody options env disk file connection = some built) :
    (acceptsGzip connection.requestHeaders ∧ ∃ size, stSize built.body = some size ∧
      built.connection = { connection with
        bodyFd := env.gzipFd
        bodyLength := size
        contentEncoding := .gzip }) ∨
    (¬ acceptsGzip connection.requestHeaders ∧ built.body = file.content ∧
      built.connection = connection) := by
  unfold encodeBody at h
  split at h
  · unfold makeContentEncoding at h
    obtain ⟨absolutePath, -, h⟩ := Option.bind_eq_some_iff.mp h
    obtain ⟨gzipPath, -, h⟩ := Option.bind_eq_some_iff.mp h
    obtain ⟨⟨body, disk'⟩, -, h⟩ := Option.bind_eq_some_iff.mp h
    obtain ⟨size, hsize, h⟩ := Option.bind_eq_some_iff.mp h
    obtain rfl := Option.some.inj h
    exact Or.inl ⟨‹_›, size, hsize, rfl⟩
  · obtain rfl := Option.some.inj h
    exact Or.inr ⟨‹_›, rfl, rfl⟩

/-- What the encoding of the body does: it gives the record a descriptor, the length of the body and
the encoding. -/
theorem encodeBody_inv {options : Options} {env : ResponseEnv} {disk : Disk} {file : File}
    {connection : QueueConnectionElementType} {built : Built} (hsize : stSize file.content =
      some connection.bodyLength) (hfd : connection.bodyFd = env.bodyFd)
    (h : encodeBody options env disk file connection = some built) :
    ∃ (fd : ℕ) (size : ℕ) (encoding : ContentEncoding), stSize built.body = some size ∧
      built.connection =
        { connection with bodyFd := fd, bodyLength := size, contentEncoding := encoding } := by
  rcases encodeBody_cases h with ⟨-, size, hsize', hc⟩ | ⟨-, hbody, hc⟩
  · exact ⟨env.gzipFd, size, .gzip, hsize', hc⟩
  · refine ⟨env.bodyFd, connection.bodyLength, connection.contentEncoding, hbody ▸ hsize, ?_⟩
    rw [hc, ← hfd]

/-! ### Sending -/

/-- What a call of `send` or `sendfile` returns. -/
inductive SendResult where
  | sent (count : ℕ)
  | eintr
  | eagain
  | error
  deriving DecidableEq, Repr

/-- The connection, the bytes the kernel accepted, and whether the loop goes on. -/
structure SendTurn where
  connection : QueueConnectionElementType
  accepted : Bytes
  repeats : Bool

/-- One turn of the loop of `sendResponseHeaders`. -/
def sendResponseHeadersTurn (connection : QueueConnectionElementType) (r : SendResult) :
    Option SendTurn := do
  let headers ← connection.responseBufferHeaders
  let offset := connection.responseBufferHeadersOffset
  let toSendBody := { connection with state := .sendBody, responseBufferHeadersOffset := 0 }
  match r with
  | .eintr => return ⟨connection, [], true⟩
  | .eagain =>
    if offset = connection.responseBufferHeadersLength then return ⟨toSendBody, [], false⟩
    else return ⟨connection, [], false⟩
  | .error => return ⟨{ connection with state := .doneForClose }, [], false⟩
  | .sent count =>
    let bytesSend := min count (sizeSub connection.responseBufferHeadersLength offset)
    if headers.length < offset + bytesSend then none
    else
      let accepted := (headers.drop offset).take bytesSend
      if bytesSend = 0 then return ⟨{ connection with state := .doneForClose }, accepted, false⟩
      else if offset + bytesSend = connection.responseBufferHeadersLength then
        return ⟨toSendBody, accepted, false⟩
      else
        return ⟨{ connection with responseBufferHeadersOffset := offset + bytesSend }, accepted, true⟩

/-- The whole body has been sent: `bodyFd` is closed. -/
def bodySent (connection : QueueConnectionElementType) : QueueConnectionElementType :=
  { connection with state := .done, bodyOffset := 0, bodyFd := -1 }

/-- One turn of the loop of `sendResponseFile`, with the file that `bodyFd` refers to. `sendfile`
sends no more than there is behind the offset, which it moves. -/
def sendResponseFileTurn (connection : QueueConnectionElementType) (bodyFile : Bytes)
    (r : SendResult) : SendTurn :=
  match r with
  | .eintr => ⟨connection, [], true⟩
  | .eagain =>
    if connection.bodyOffset = connection.bodyLength then ⟨bodySent connection, [], false⟩
    else ⟨connection, [], false⟩
  | .error => ⟨{ connection with state := .doneForClose }, [], false⟩
  | .sent count =>
    let asked := sizeSub connection.bodyLength connection.bodyOffset
    let accepted := (bodyFile.drop connection.bodyOffset).take (min count asked)
    let c₁ := { connection with bodyOffset := connection.bodyOffset + accepted.length }
    if accepted = [] then ⟨{ c₁ with state := .doneForClose }, accepted, false⟩
    else if c₁.bodyOffset = c₁.bodyLength then ⟨bodySent c₁, accepted, false⟩
    else ⟨c₁, accepted, true⟩

/-- One turn of the loop of `sendAll`: the bytes accepted, and what is left to write if the loop goes
on. Each turn sends from the start of the buffer. -/
def sendAllTurn (buffer : Bytes) (leftToWrite : ℕ) : SendResult → Bytes × Option ℕ
  | .eintr => ([], some leftToWrite)
  | .eagain => ([], none)
  | .error => ([], none)
  | .sent count =>
    let written := min count buffer.length
    (buffer.take written, some (sizeSub leftToWrite written))

/-! ### The fixed responses -/

def helloResponseTemplate : Bytes :=
  bytes "HTTP/1.1 200 OK\nContent-type: text/html; charset=UTF-8\nContent-Length: 56\n" ++
  bytes "Connection: close\n\n<html>\n <body>\n  <h1>Hello world!</h1>\n </body>\n</html>\n"

def badRequestResponseTemplate : Bytes :=
  bytes "HTTP/1.1 400 Bad Request\nContent-type: text/html; charset=UTF-8\n" ++
  bytes "Connection: close\n\n<html>\n <body>\n  <h1>Bad Request</h1>\n" ++
  bytes "  <p>This server did not understand your request.</p>\n </body>\n</html>\n"

/-- `versionNotSupportedResponseTemplate` with the version filled in, as far as it fits the array. -/
def unsupportedProtocolResponse (protocolVersion : Bytes) : Bytes :=
  (bytes "HTTP/1.1 505 HTTP Version Not Supported\nContent-type: text/html; charset=UTF-8\n" ++
    bytes "Connection: close\n\n<html>\n <body>\n  <h1>HTTP Version <" ++ protocolVersion ++
    bytes "> Not Supported</h1>\n </body>\n</html>\n").take 1023

/-! ### A site for concrete runs -/

/-- An index page and an error page. -/
def wwwDisk : Disk where
  place := Paths.resolve
  file place :=
    if place = Paths.resolve (bytes "/www/index.html") then .ok ⟨bytes "hello", 7, 7⟩
    else if place = Paths.resolve (bytes "/www/error/404.html") then .ok ⟨bytes "not found", 7, 7⟩
    else .error .enoent

example : wwwDisk.openFile (bytes "/www//index.html") = wwwDisk.openFile (bytes "/www/index.html") := by
  decide +kernel

def localResponseEnv : ResponseEnv where
  errnoAfterLog := id
  bodyFd := 9
  gzipFd := 10
  cwd := some (bytes "/srv")
  magicLoads := true
  magicDescriptor := some (bytes "text/html")
  isDirectory := fun _ => true
  mkdirs := true
  gzopens := true
  gzip := fun content => 31 :: content
  strftime := fun _ => bytes "Thu, 01 Jan 1970 00:00:00 GMT"
  now := 0

end UbServer

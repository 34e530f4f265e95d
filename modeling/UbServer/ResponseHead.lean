import UbServer.Response

/-!
# The head of a response

The last part of `makeResponse`, from the first `snprintf` on, for any record and any content type
and dates.

* `fieldOf`: the value of a line of a head, by its name.
* `responseHead_spec`: the head is printed in full and its length is the one that is sent.
-/

namespace UbServer

open CString

/-! ### The lines of a head -/

/-- The value of the first line of a head that starts with `name`. -/
def fieldOf (name head : Bytes) : Option Bytes :=
  ((head.splitOn 10).find? name.isPrefixOf).map (·.drop name.length)

section Lines

variable {name line value : Bytes}

theorem fieldOf_other (hline : (10 : UInt8) ∉ line) (hother : name.isPrefixOf line = false)
    (rest : Bytes) : fieldOf name (line ++ 10 :: rest) = fieldOf name rest := by
  unfold fieldOf
  rw [List.splitOn_append_cons_self_of_not_mem hline, List.find?_cons_of_neg (by simp [hother])]

theorem fieldOf_self (hname : (10 : UInt8) ∉ name) (hvalue : (10 : UInt8) ∉ value) (rest : Bytes) :
    fieldOf name (name ++ value ++ 10 :: rest) = some value := by
  have hline : (10 : UInt8) ∉ name ++ value := by
    rw [List.mem_append, not_or]
    exact ⟨hname, hvalue⟩
  have hfield : name.isPrefixOf (name ++ value) = true := by
    rw [List.isPrefixOf_iff_prefix]
    exact List.prefix_append _ _
  unfold fieldOf
  rw [List.splitOn_append_cons_self_of_not_mem hline, List.find?_cons_of_pos hfield]
  exact congrArg some List.drop_left

theorem fieldOf_lines {lines : List Bytes}
    (h : ∀ line ∈ lines, (10 : UInt8) ∉ line ∧ name.isPrefixOf line = false) (rest : Bytes) :
    fieldOf name ((lines.map (· ++ [10])).flatten ++ rest) = fieldOf name rest := by
  induction lines with
  | nil => rfl
  | cons line lines ih =>
    obtain ⟨⟨hbreak, hother⟩, hlines⟩ := List.forall_mem_cons.mp h
    rw [List.map_cons, List.flatten_cons, List.append_assoc, List.append_assoc,
      List.singleton_append, fieldOf_other hbreak hother]
    exact ih hlines

end Lines

/-- The first line of a response header. -/
def statusLine (c : QueueConnectionElementType) : Bytes :=
  c.protocolVersion ++ bytes " " ++ bytes (toString (httpStatusCode c.responseStatusCode)) ++
    bytes " " ++ httpStatusReason c.responseStatusCode

theorem supportedProtocol_cases {protocol : Bytes} (h : supportedProtocol protocol) :
    protocol = bytes "HTTP/1.0" ∨ protocol = bytes "HTTP/1.1" := by
  simpa [supportedProtocol] using h

theorem supportedProtocol_length {protocol : Bytes} (h : supportedProtocol protocol) :
    protocol.length < 9 := by
  rcases supportedProtocol_cases h with rfl | rfl <;> decide +kernel

/-- The lines before the length of the body. -/
def linesBeforeLength (c : QueueConnectionElementType) : List Bytes :=
  [statusLine c] ++
  (if c.contentEncoding = .gzip then [bytes "content-encoding: gzip"] else []) ++
  (if asksKeepAlive c.requestHeaders then
    [bytes "connection: keep-alive", bytes "keep-alive: timeout=" ++ bytes (toString keepAliveTimeout)]
  else [bytes "connection: close"])

/-! ### Printing the head -/

section Head

variable {c c' : QueueConnectionElementType} {mimeType lastModifiedDate currentDate head : Bytes}

theorem responseHeaderTexts_flatten (c : QueueConnectionElementType)
    (mimeType lastModifiedDate currentDate : Bytes) :
    (responseHeaderTexts c mimeType lastModifiedDate currentDate).flatten =
      ((linesBeforeLength c).map (· ++ [10])).flatten ++
        (bytes "content-length: " ++ bytes (toString c.bodyLength) ++
          10 :: [bytes "content-type: " ++ mimeType ++ bytes "\n",
            bytes "date: " ++ currentDate ++ bytes "\n",
            bytes "last-modified: " ++ lastModifiedDate ++ bytes "\n",
            bytes "server: Undefined Behaviour Server\n",
            bytes "cache-control: private, no-cache, no-store, must-revalidate\n\n"].flatten) := by
  have hbreak : bytes "\n" = [10] := by decide +kernel
  have hencoding : bytes "content-encoding: gzip\n" = bytes "content-encoding: gzip" ++ [10] := by
    decide +kernel
  have hkeep : bytes "connection: keep-alive\n" = bytes "connection: keep-alive" ++ [10] := by
    decide +kernel
  have hclose : bytes "connection: close\n" = bytes "connection: close" ++ [10] := by
    decide +kernel
  unfold responseHeaderTexts linesBeforeLength statusLine
  rw [hbreak, hencoding, hkeep, hclose]
  split <;> split <;> simp

theorem linesBeforeLength_spec (hprotocol : supportedProtocol c.protocolVersion) :
    ∀ line ∈ linesBeforeLength c, (0 : UInt8) ∉ line ∧ (10 : UInt8) ∉ line ∧
      (bytes "content-length: ").isPrefixOf line = false := by
  have hstatus : (0 : UInt8) ∉ statusLine c ∧ (10 : UInt8) ∉ statusLine c ∧
      (bytes "content-length: ").isPrefixOf (statusLine c) = false := by
    unfold statusLine
    rcases supportedProtocol_cases hprotocol with h | h <;>
    · rw [h]
      cases c.responseStatusCode <;> decide +kernel
  intro line hline
  unfold linesBeforeLength at hline
  rcases List.mem_append.mp hline with hline | hline
  · rcases List.mem_append.mp hline with hline | hline
    · obtain rfl := List.mem_singleton.mp hline
      exact hstatus
    · split at hline
      · obtain rfl := List.mem_singleton.mp hline
        decide +kernel
      · cases hline
  · split at hline
    · rcases List.mem_pair.mp hline with rfl | rfl <;> decide +kernel
    · obtain rfl := List.mem_singleton.mp hline
      decide +kernel

theorem fieldOf_contentLength (hprotocol : supportedProtocol c.protocolVersion) :
    fieldOf (bytes "content-length: ")
        (responseHeaderTexts c mimeType lastModifiedDate currentDate).flatten =
      some (bytes (toString c.bodyLength)) := by
  have hdigits : (10 : UInt8) ∉ bytes (toString c.bodyLength) := by
    intro h
    rw [bytes_toString_nat] at h
    have hcode := mem_bytes_toString h
    simp at hcode
  rw [responseHeaderTexts_flatten,
    fieldOf_lines fun line hline => (linesBeforeLength_spec hprotocol line hline).2]
  exact fieldOf_self (by decide +kernel) hdigits _

theorem nul_notMem_head (hprotocol : supportedProtocol c.protocolVersion)
    (hmime : (0 : UInt8) ∉ mimeType) (hmodified : (0 : UInt8) ∉ lastModifiedDate)
    (hcurrent : (0 : UInt8) ∉ currentDate) :
    (0 : UInt8) ∉ (responseHeaderTexts c mimeType lastModifiedDate currentDate).flatten := by
  have hdigits : (0 : UInt8) ∉ bytes (toString c.bodyLength) := by
    intro h
    rw [bytes_toString_nat] at h
    have hcode := mem_bytes_toString h
    simp at hcode
  have hlines : (0 : UInt8) ∉ ((linesBeforeLength c).map (· ++ [10])).flatten := by
    intro h
    obtain ⟨_, hmap, h⟩ := List.mem_flatten.mp h
    obtain ⟨line, hline, rfl⟩ := List.mem_map.mp hmap
    rcases List.mem_append.mp h with h | h
    · exact (linesBeforeLength_spec hprotocol line hline).1 h
    · exact absurd (List.mem_singleton.mp h) (by decide)
  have hfixed : (0 : UInt8) ∉ bytes "content-length: " ++ [10] ++ bytes "content-type: " ++
      bytes "date: " ++ bytes "last-modified: " ++ bytes "\n" ++
      bytes "server: Undefined Behaviour Server\n" ++
      bytes "cache-control: private, no-cache, no-store, must-revalidate\n\n" := by decide +kernel
  rw [responseHeaderTexts_flatten]
  simp only [List.mem_append, List.mem_cons, List.flatten_cons, List.flatten_nil, not_or] at hfixed ⊢
  simp only [hfixed, hlines, hdigits, hmime, hmodified, hcurrent, not_false_eq_true, and_self]

/-- **The head is never truncated.** For a content type of at most 149 bytes, dates of at most 29 and
any length of the body that a `size_t` holds: the reason fits `statusCodeReason`, at each call of
`snprintf` the offset is below the size of the array and the line fits, and the length stored is that
of the string stored, whose `content-length` line is the decimal of the length of the body. -/
theorem responseHead_spec (hprotocol : supportedProtocol c.protocolVersion)
    (hlength : c.bodyLength < 2 ^ 64) (hmime : mimeType.length ≤ 149 ∧ (0 : UInt8) ∉ mimeType)
    (hmodified : lastModifiedDate.length ≤ 29 ∧ (0 : UInt8) ∉ lastModifiedDate)
    (hcurrent : currentDate.length ≤ 29 ∧ (0 : UInt8) ∉ currentDate) :
    (httpStatusReason c.responseStatusCode).length < 33 ∧
    (∀ before text after,
      responseHeaderTexts c mimeType lastModifiedDate currentDate = before ++ text :: after →
      ∃ printed, printAll 1024 before = some printed ∧ printed.offset < 1024 ∧
        sizeSub 1024 printed.offset = 1024 - printed.offset ∧
        printed.offset + text.length < 1024) ∧
    ∃ c' head, responseHead c mimeType lastModifiedDate currentDate = some c' ∧
      c'.responseBufferHeaders = some head ∧ c'.responseBufferHeadersLength = head.length ∧
      cString head = head ∧
      head = (responseHeaderTexts c mimeType lastModifiedDate currentDate).flatten ∧
      fieldOf (bytes "content-length: ") head = some (bytes (toString c.bodyLength)) := by
  have hfit : (responseHeaderTexts c mimeType lastModifiedDate currentDate).flatten.length < 1024 :=
    length_responseHeaderTexts (supportedProtocol_length hprotocol) (by omega) (by omega) (by omega)
      hlength
  refine ⟨?_, fun before text after e => ?_, ?_⟩
  · cases c.responseStatusCode <;> decide +kernel
  · obtain ⟨hprinted, hlt⟩ := printAll_before hfit e
    have hoffset : before.flatten.length < 1024 := by omega
    exact ⟨_, hprinted, hoffset, sizeSub_of_le hoffset.le (by decide), hlt⟩
  · unfold responseHead
    rw [printAll_of_lt hfit]
    exact ⟨_, _, rfl, rfl, rfl,
      cString_of_not_mem (nul_notMem_head hprotocol hmime.2 hmodified.2 hcurrent.2), rfl,
      fieldOf_contentLength hprotocol⟩

/-- A response with a body of the greatest length that a `size_t` holds. -/
theorem responseHead_greatest :
    ∃ c' head, responseHead
        { emptyConnection with protocolVersion := bytes "HTTP/1.1", bodyLength := 2 ^ 64 - 1 }
        (bytes "text/html") (localResponseEnv.strftime 0) (localResponseEnv.strftime 0) = some c' ∧
      c'.responseBufferHeaders = some head ∧ c'.responseBufferHeadersLength = head.length := by
  have hdate : (localResponseEnv.strftime 0).length ≤ 29 ∧
      (0 : UInt8) ∉ localResponseEnv.strftime 0 := by decide +kernel
  have hmime : (bytes "text/html").length ≤ 149 ∧ (0 : UInt8) ∉ bytes "text/html" := by
    decide +kernel
  obtain ⟨-, -, c', head, h, hhead, hlength, -⟩ := responseHead_spec
    (c := { emptyConnection with protocolVersion := bytes "HTTP/1.1", bodyLength := 2 ^ 64 - 1 })
    (by decide +kernel) (by decide) hmime hdate hdate
  exact ⟨c', head, h, hhead, hlength⟩

end Head

/-- `makeResponse` ends in `responseHead`, called with what `responseHead_spec` asks for if `libmagic`
and `strftime` give C strings and the dates are no longer than their format makes them. -/
theorem makeResponse_head {options : Options} {env : ResponseEnv} {disk : Disk}
    {connection : QueueConnectionElementType} {built : Built}
    (hprotocol : supportedProtocol connection.protocolVersion)
    (hmagic : ∀ descriptor ∈ env.magicDescriptor, (0 : UInt8) ∉ descriptor)
    (hdates : ∀ time, (env.strftime time).length ≤ 29 ∧ (0 : UInt8) ∉ env.strftime time)
    (h : makeResponse options env disk connection = some built) :
    ∃ (encoded : QueueConnectionElementType) (mimeType lastModifiedDate currentDate : Bytes),
      responseHead encoded mimeType lastModifiedDate currentDate = some built.connection ∧
      supportedProtocol encoded.protocolVersion ∧ encoded.bodyLength < 2 ^ 64 ∧
      (mimeType.length ≤ 149 ∧ (0 : UInt8) ∉ mimeType) ∧
      (lastModifiedDate.length ≤ 29 ∧ (0 : UInt8) ∉ lastModifiedDate) ∧
      (currentDate.length ≤ 29 ∧ (0 : UInt8) ∉ currentDate) := by
  obtain ⟨-, -, file, code, size, mimeType, lastModifiedDate, currentDate, printed, encoded, -, -,
    hsize, hmime, hencoded, hmodified, hcurrent, hprinted, rfl⟩ := makeResponse_inv h
  obtain ⟨bodyFd, size', encoding, hsize', hconnection⟩ := encodeBody_inv hsize rfl hencoded
  refine ⟨encoded.connection, mimeType, lastModifiedDate, currentDate, ?_, ?_, ?_, ?_, ?_, ?_⟩
  · unfold responseHead
    rw [hprinted]
    rfl
  · rw [hconnection]
    exact hprotocol
  · have hlt := (stSize_inv hsize').2
    rw [hconnection]
    simp only
    omega
  · exact ⟨Nat.le_of_lt_succ (getMimeType_length hmime),
      notMem_getMimeType hmagic (by decide +kernel) hmime⟩
  · rw [(fits_inv hmodified).1]
    exact hdates file.stMtime
  · rw [(fits_inv hcurrent).1]
    exact hdates env.now

end UbServer

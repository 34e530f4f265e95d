import UbServer.AnnouncedFate
import UbServer.Options
import UbServer.Lib.Framing

/-!
# The format of a response

What `makeResponse` sends is a head of lines that ends in an empty one, and a body of the length in
the `content-length` line: messages in the sense of `Lib.Framing`, so that a client can cut a stream
of responses into the responses.

* `Reply`: a response that a client can cut out.
* `makeResponse_reply`: the responses of `makeResponse` are such.
* `stream_roundTrip`: what a client reads of any number of them.
-/

namespace UbServer

open CString Framing

/-- The number in the `content-length` line of a head. -/
def contentLength (head : Bytes) : Option ℕ :=
  (fieldOf (bytes "content-length: ") head).map digitsValue

/-- A response: the head ends with its first empty line and gives the length of the body. -/
abbrev Reply := Delimited [(10 : UInt8), 10] contentLength

def replyCode : StreamCode UInt8 Reply := Delimited.code (List.cons_ne_nil 10 [10])

/-- Neither `libmagic` nor `strftime` gives a text with a line break. -/
def ResponseEnv.OneLine (env : ResponseEnv) : Prop :=
  (∀ descriptor ∈ env.magicDescriptor, (10 : UInt8) ∉ descriptor) ∧
    ∀ time, (10 : UInt8) ∉ env.strftime time

section Lines

variable {c : QueueConnectionElementType} {mimeType lastModifiedDate currentDate : Bytes}

/-- The lines of a head, without the empty one at its end. -/
def headLines (c : QueueConnectionElementType) (mimeType lastModifiedDate currentDate : Bytes) :
    List Bytes :=
  linesBeforeLength c ++
    [bytes "content-length: " ++ bytes (toString c.bodyLength),
      bytes "content-type: " ++ mimeType, bytes "date: " ++ currentDate,
      bytes "last-modified: " ++ lastModifiedDate, bytes "server: Undefined Behaviour Server",
      bytes "cache-control: private, no-cache, no-store, must-revalidate"]

theorem responseHeaderTexts_lines (c : QueueConnectionElementType)
    (mimeType lastModifiedDate currentDate : Bytes) :
    (responseHeaderTexts c mimeType lastModifiedDate currentDate).flatten =
      ((headLines c mimeType lastModifiedDate currentDate).map (· ++ [10])).flatten ++ [10] := by
  have hbreak : bytes "\n" = [10] := by decide +kernel
  have hserver : bytes "server: Undefined Behaviour Server\n" =
      bytes "server: Undefined Behaviour Server" ++ [10] := by decide +kernel
  have hcache : bytes "cache-control: private, no-cache, no-store, must-revalidate\n\n" =
      bytes "cache-control: private, no-cache, no-store, must-revalidate" ++ [10] ++ [10] := by
    decide +kernel
  rw [responseHeaderTexts_flatten, hbreak, hserver, hcache]
  unfold headLines
  simp only [List.map_append, List.flatten_append, List.map_cons, List.map_nil, List.flatten_cons,
    List.flatten_nil, List.append_assoc, List.append_nil, List.cons_append, List.nil_append]

theorem linesBeforeLength_ne_nil : ∀ line ∈ linesBeforeLength c, line ≠ [] := by
  have hspace : bytes " " ≠ [] := by decide +kernel
  have hstatus : statusLine c ≠ [] := by
    unfold statusLine
    exact List.append_ne_nil_of_left_ne_nil (List.append_ne_nil_of_right_ne_nil _ hspace) _
  have hgzip : bytes "content-encoding: gzip" ≠ [] := by decide +kernel
  have hkeep : bytes "connection: keep-alive" ≠ [] := by decide +kernel
  have htimeout : bytes "keep-alive: timeout=" ≠ [] := by decide +kernel
  have hclose : bytes "connection: close" ≠ [] := by decide +kernel
  intro line hline
  unfold linesBeforeLength at hline
  rcases List.mem_append.mp hline with hline | hline
  · rcases List.mem_append.mp hline with hline | hline
    · obtain rfl := List.mem_singleton.mp hline
      exact hstatus
    · split at hline
      · obtain rfl := List.mem_singleton.mp hline
        exact hgzip
      · cases hline
  · split at hline
    · rcases List.mem_pair.mp hline with rfl | rfl
      · exact hkeep
      · exact List.append_ne_nil_of_left_ne_nil htimeout _
    · obtain rfl := List.mem_singleton.mp hline
      exact hclose

theorem headLines_spec (hprotocol : supportedProtocol c.protocolVersion)
    (hmime : (10 : UInt8) ∉ mimeType) (hmodified : (10 : UInt8) ∉ lastModifiedDate)
    (hcurrent : (10 : UInt8) ∉ currentDate) :
    ∀ line ∈ headLines c mimeType lastModifiedDate currentDate, (10 : UInt8) ∉ line ∧ line ≠ [] := by
  -- a field: its name is there, and the value contains no line break
  have hfield : ∀ {name value : Bytes}, (10 : UInt8) ∉ name ∧ name ≠ [] → (10 : UInt8) ∉ value →
      (10 : UInt8) ∉ name ++ value ∧ name ++ value ≠ [] := by
    intro name value hname hvalue
    refine ⟨?_, List.append_ne_nil_of_left_ne_nil hname.2 _⟩
    rw [List.mem_append, not_or]
    exact ⟨hname.1, hvalue⟩
  have hdigits : (10 : UInt8) ∉ bytes (toString c.bodyLength) := by
    intro h
    rw [bytes_toString_nat] at h
    have hcode := mem_bytes_toString h
    simp at hcode
  intro line hline
  unfold headLines at hline
  rcases List.mem_append.mp hline with hline | hline
  · exact ⟨(linesBeforeLength_spec hprotocol line hline).2.1, linesBeforeLength_ne_nil line hline⟩
  · simp only [List.mem_cons, List.not_mem_nil, or_false] at hline
    rcases hline with rfl | rfl | rfl | rfl | rfl | rfl
    · exact hfield (by decide +kernel) hdigits
    · exact hfield (by decide +kernel) hmime
    · exact hfield (by decide +kernel) hcurrent
    · exact hfield (by decide +kernel) hmodified
    · decide +kernel
    · decide +kernel

end Lines

/-- **The responses of `makeResponse` can be cut out of a stream**: the head ends with its first empty
line, and its `content-length` is the length of the body. -/
theorem makeResponse_reply {options : Options} {env : ResponseEnv} {disk : Disk}
    {c : QueueConnectionElementType} {built : Built} (hprotocol : supportedProtocol c.protocolVersion)
    (henv : env.OneLine) (h : makeResponse options env disk c = some built) :
    ∃ reply : Reply, built.connection.responseBufferHeaders = some reply.head ∧
      reply.body = built.body ∧
      announced reply.head =
        some (if built.connection.keepAlive then bytes "keep-alive" else bytes "close") := by
  have hannounced : ∀ {head}, built.connection.responseBufferHeaders = some head →
      announced head = _ := fun hhead => makeResponse_announced hprotocol h hhead
  obtain ⟨-, -, file, code, size, mimeType, lastModifiedDate, currentDate, printed, encoded, -, -,
    hsize, hmime, hencoded, hmodified, hcurrent, hprinted, rfl⟩ := makeResponse_inv h
  obtain ⟨bodyFd, size', encoding, hsize', hconnection⟩ := encodeBody_inv hsize rfl hencoded
  obtain ⟨hlength, hlt⟩ := stSize_inv hsize'
  have hprotocol' : supportedProtocol encoded.connection.protocolVersion := by
    rw [hconnection]
    exact hprotocol
  have hbodyLength : encoded.connection.bodyLength = encoded.body.length := by
    rw [hconnection]
    exact hlength
  have hfit := length_responseHeaderTexts (supportedProtocol_length hprotocol')
    (getMimeType_length hmime) (fits_inv hmodified).2 (fits_inv hcurrent).2
    (by rw [hbodyLength]; omega)
  obtain rfl := Option.some.inj ((printAll_of_lt hfit).symm.trans hprinted)
  obtain ⟨rfl, -⟩ := fits_inv hmodified
  obtain ⟨rfl, -⟩ := fits_inv hcurrent
  have hlines := headLines_spec (c := encoded.connection) hprotocol'
    (notMem_getMimeType henv.1 (by decide +kernel) hmime) (henv.2 file.stMtime) (henv.2 env.now)
  have hne : headLines encoded.connection mimeType (env.strftime file.stMtime)
      (env.strftime env.now) ≠ [] := List.append_ne_nil_of_right_ne_nil _ (List.cons_ne_nil _ _)
  refine ⟨⟨(responseHeaderTexts encoded.connection mimeType (env.strftime file.stMtime)
    (env.strftime env.now)).flatten, encoded.body, ?_, ?_⟩, rfl, rfl, hannounced rfl⟩
  · rw [responseHeaderTexts_lines]
    exact Delimited.strstr_lines hlines hne
  · unfold contentLength
    rw [fieldOf_contentLength hprotocol', Option.map_some, digitsValue_toString, hbodyLength]

/-! ### A stream of responses -/

/-- A response that `makeResponse` builds for a request it is called for. -/
def Built.Sendable (built : Built) : Prop :=
  ∃ options env disk c, supportedProtocol c.protocolVersion ∧ env.OneLine ∧
    makeResponse options env disk c = some built

/-- What is sent of a response. -/
def Built.parts (built : Built) : Bytes × Bytes :=
  (built.connection.responseBufferHeaders.getD [], built.body)

theorem Built.Sendable.reply {built : Built} (h : built.Sendable) :
    ∃ reply : Reply, (reply.head, reply.body) = built.parts := by
  obtain ⟨options, env, disk, c, hprotocol, henv, hbuilt⟩ := h
  obtain ⟨reply, hhead, hbody, -⟩ := makeResponse_reply hprotocol henv hbuilt
  refine ⟨reply, ?_⟩
  unfold Built.parts
  rw [hhead, hbody, Option.getD_some]

theorem exists_replies {builts : List Built} (h : ∀ built ∈ builts, built.Sendable) :
    ∃ replies : List Reply,
      replies.map (fun reply => (reply.head, reply.body)) = builts.map Built.parts := by
  induction builts with
  | nil => exact ⟨[], rfl⟩
  | cons built builts ih =>
    obtain ⟨hbuilt, hbuilts⟩ := List.forall_mem_cons.mp h
    obtain ⟨reply, hreply⟩ := hbuilt.reply
    obtain ⟨replies, hreplies⟩ := ih hbuilts
    exact ⟨reply :: replies, congrArg₂ List.cons hreply hreplies⟩

/-- **Round trip of a stream.** Responses of `makeResponse`, for any requests and files, sent one
behind the other, are cut out of the stream as they were built, and of a part of the stream nothing
is read that is not one of them. -/
theorem stream_roundTrip {builts : List Built} (h : ∀ built ∈ builts, built.Sendable) :
    ∃ replies : List Reply,
      replies.map (fun reply => (reply.head, reply.body)) = builts.map Built.parts ∧
      replyCode.decodeAll (builts.flatMap fun built => built.parts.1 ++ built.parts.2) =
        (replies, []) ∧
      ∀ part, part <+: (builts.flatMap fun built => built.parts.1 ++ built.parts.2) →
        (replyCode.decodeAll part).1 <+: replies := by
  obtain ⟨replies, hreplies⟩ := exists_replies h
  have hstream : (builts.flatMap fun built => built.parts.1 ++ built.parts.2) =
      replies.flatMap replyCode.render := by
    calc (builts.flatMap fun built => built.parts.1 ++ built.parts.2)
        = (builts.map Built.parts).flatMap fun parts => parts.1 ++ parts.2 := by
          rw [List.flatMap_map]
      _ = (replies.map fun reply => (reply.head, reply.body)).flatMap
            fun parts => parts.1 ++ parts.2 := by rw [hreplies]
      _ = replies.flatMap replyCode.render := by
          rw [List.flatMap_map]
          rfl
  rw [hstream]
  exact ⟨replies, hreplies, StreamCode.decodeAll_flatMap replies,
    fun part hpart => StreamCode.decodeAll_of_prefix hpart⟩

theorem localResponseEnv_oneLine : localResponseEnv.OneLine := by
  constructor
  · intro descriptor hdescriptor
    obtain rfl := Option.mem_some_iff.mp hdescriptor
    decide +kernel
  · intro time
    show (10 : UInt8) ∉ bytes "Thu, 01 Jan 1970 00:00:00 GMT"
    decide +kernel

/-- The index page twice. -/
theorem stream_roundTrip_indexPage :
    ∃ replies : List Reply,
      replies.map (fun reply => (reply.head, reply.body)) =
        [indexPageBuilt, indexPageBuilt].map Built.parts ∧
      replyCode.decodeAll ([indexPageBuilt, indexPageBuilt].flatMap
        fun built => built.parts.1 ++ built.parts.2) = (replies, []) ∧
      ∀ part, part <+: ([indexPageBuilt, indexPageBuilt].flatMap
          fun built => built.parts.1 ++ built.parts.2) →
        (replyCode.decodeAll part).1 <+: replies := by
  have hsendable : indexPageBuilt.Sendable :=
    ⟨wwwOptions, localResponseEnv, wwwDisk, indexPageParsed, by decide +kernel,
      localResponseEnv_oneLine, (Option.some_get _).symm⟩
  refine stream_roundTrip fun built hbuilt => ?_
  rcases List.mem_pair.mp hbuilt with rfl | rfl <;> exact hsendable

end UbServer

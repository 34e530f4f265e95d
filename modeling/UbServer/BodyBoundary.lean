import UbServer.Segmentation
import UbServer.RoundTrip
import UbServer.RequestLine

/-!
# Where the headers end

Two runs of `processRequest` on requests that have their request line and headers in common and
differ in their bodies.

* `headersString`: the part of a request that the `strtok` loop is run over.
* `withoutBody`: the answer of `processRequest` but for the body.
* `bodyConfined_iff`: the heads of requests whose bodies cannot be seen in the rest of the answer.
-/

namespace UbServer

open CString

/-- The request line in the text is one that `processRequest` goes on with. -/
def Accepts (env : RequestEnv) (text : Bytes) : Prop :=
  env.peer.isSome ∧ ∃ firstLineLength method path protocolVersion,
    strstr crlf text = some firstLineLength ∧
      scanRequestLine env (text.take firstLineLength) = some (method, path, protocolVersion) ∧
      strToMethod method ≠ .unsupported

/-- The local `headersString` of `processRequest`, empty for a request without headers. -/
def headersString (text : Bytes) (firstLineLength : ℕ) : Bytes :=
  match strstr crlfcrlf (text.drop (firstLineLength + 2)) with
  | none => []
  | some endOfHeaders => (text.drop firstLineLength).take (2 + (endOfHeaders + 4))

/-- The value returned, the method, the path, the protocol version and the headers. -/
def withoutBody (answer : Option (Bool × QueueConnectionElementType)) :
    Option (Bool × ParsedRequest) :=
  answer.map fun (valid, c) => (valid, { c.parsedRequest with requestBody := none })

/-- **Body confinement** of a head: whatever follows it, the answer but for the body is the same. -/
def BodyConfined (options : Options) (env : RequestEnv) (c : QueueConnectionElementType)
    (head : Bytes) : Prop :=
  ∀ body₁ body₂ rest₁ rest₂ : Bytes, (0 : UInt8) ∉ body₁ → (0 : UInt8) ∉ body₂ →
    withoutBody (processRequest options env
        { c with requestBuffer := some (head ++ body₁ ++ 0 :: rest₁) }) =
      withoutBody (processRequest options env
        { c with requestBuffer := some (head ++ body₂ ++ 0 :: rest₂) })

section Answer

variable {options : Options} {env : RequestEnv} {c : QueueConnectionElementType} {text : Bytes}
  {firstLineLength : ℕ}

theorem headersLoop_eq (s : Bytes) (headers : List Header) :
    headersLoop s headers = ((strtok isLineBreak s).map headerNode).reverse ++ headers := by
  induction s, headers using headersLoop.induct with
  | case1 s headers h => rw [headersLoop_of_nil h, strtok_of_nil h, List.map_nil, List.reverse_nil,
      List.nil_append]
  | case2 s headers a rest h ih =>
    rw [headersLoop_of_cons h, ih, strtok_of_cons h, List.map_cons, List.reverse_cons,
      List.append_assoc, List.singleton_append]

theorem processHeaders_parsed (text : Bytes) (firstLineLength : ℕ)
    (c : QueueConnectionElementType) :
    { (processHeaders text firstLineLength c).parsedRequest with requestBody := none } =
      { c.parsedRequest with
        requestHeaders :=
          headersLoop (headersString text firstLineLength) c.requestHeaders
        requestBody := none } := by
  unfold processHeaders headersString
  cases he : strstr crlfcrlf (text.drop (firstLineLength + 2)) with
  | none =>
    have hnil : headersLoop [] c.requestHeaders = c.requestHeaders := headersLoop_of_nil rfl _
    simp only [he, hnil]
    rfl
  | some endOfHeaders =>
    have hsize : firstLineLength + 2 + (endOfHeaders + 4) - firstLineLength =
        2 + (endOfHeaders + 4) := by omega
    simp only [he, hsize]
    rfl

/-- The answer but for the body that a request line and the headers behind it get. -/
def requestLineAnswer (env : RequestEnv) (c : QueueConnectionElementType) (requestLine : Bytes)
    (requestHeaders : List Header) : Option (Bool × ParsedRequest) :=
  match env.peer with
  | none => some (false, { c.parsedRequest with requestBody := none })
  | some _ =>
    (scanRequestLine env requestLine).map fun (method, path, protocolVersion) =>
      (decide (strToMethod method ≠ .unsupported),
        { method := strToMethod method
          path := some path
          protocolVersion := protocolVersion
          requestHeaders :=
            if strToMethod method = .unsupported then c.requestHeaders else requestHeaders
          requestBody := none })

theorem withoutBody_processRequest (hline : strstr crlf text = some firstLineLength)
    (hc : c.requestBuffer.map cString = some text) :
    withoutBody (processRequest options env c) =
      requestLineAnswer env c (text.take firstLineLength)
        (headersLoop (headersString text firstLineLength) c.requestHeaders) := by
  obtain ⟨block, hblock, rfl⟩ := Option.map_eq_some_iff.mp hc
  unfold withoutBody processRequest requestLineAnswer
  simp only [hblock, Option.bind_eq_bind, Option.bind_some]
  cases env.peer with
  | none => rfl
  | some ip =>
    simp only [hline]
    cases scanRequestLine env ((cString block).take firstLineLength) with
    | none => rfl
    | some scanned =>
      obtain ⟨method, path, protocolVersion⟩ := scanned
      simp only [Option.bind_some, Option.map_some]
      by_cases hmethod : strToMethod method = .unsupported
      · simp only [hmethod, if_true]
        rfl
      · simp only [hmethod, if_false, Option.pure_def, Option.map_some]
        refine congrArg some (Prod.ext (decide_eq_true hmethod).symm ?_)
        exact processHeaders_parsed _ _ _

theorem requestLineAnswer_inj (hline : strstr crlf text = some firstLineLength)
    (haccepts : Accepts env text) {headers₁ headers₂ : List Header}
    (h : requestLineAnswer env c (text.take firstLineLength) headers₁ =
      requestLineAnswer env c (text.take firstLineLength) headers₂) : headers₁ = headers₂ := by
  obtain ⟨hpeer, n, method, path, protocolVersion, hn, hscan, hmethod⟩ := haccepts
  obtain rfl := Option.some.inj (hline.symm.trans hn)
  obtain ⟨ip, hip⟩ := Option.isSome_iff_exists.mp hpeer
  unfold requestLineAnswer at h
  simp only [hip, hscan, Option.map_some, if_neg hmethod] at h
  exact congrArg (fun answer => answer.2.requestHeaders) (Option.some.inj h)

theorem requestLineAnswer_refused (hline : strstr crlf text = some firstLineLength)
    (hrefused : ¬ Accepts env text) (headers₁ headers₂ : List Header) :
    requestLineAnswer env c (text.take firstLineLength) headers₁ =
      requestLineAnswer env c (text.take firstLineLength) headers₂ := by
  unfold requestLineAnswer
  cases hpeer : env.peer with
  | none => rfl
  | some ip =>
    cases hscan : scanRequestLine env (text.take firstLineLength) with
    | none => rfl
    | some scanned =>
      obtain ⟨method, path, protocolVersion⟩ := scanned
      have hmethod : strToMethod method = .unsupported := by
        by_contra hmethod
        exact hrefused ⟨by rw [hpeer]; rfl, _, method, path, protocolVersion, hline, hscan, hmethod⟩
      simp only [Option.map_some, if_pos hmethod]

theorem processRequest_requestHeaders {valid : Bool} {c' : QueueConnectionElementType}
    (hline : strstr crlf text = some firstLineLength)
    (hc : c.requestBuffer.map cString = some text)
    (h : processRequest options env c = some (valid, c')) :
    (valid = true ↔ Accepts env text) ∧
      c'.requestHeaders =
        if valid then headersLoop (headersString text firstLineLength) c.requestHeaders
        else c.requestHeaders := by
  have hanswer : withoutBody (processRequest options env c) = _ := withoutBody_processRequest hline hc
  have hheaders : ∀ {v p}, withoutBody (processRequest options env c) = some (v, p) →
      valid = v ∧ c'.requestHeaders = p.requestHeaders := by
    intro v p hp
    rw [h] at hp
    obtain ⟨rfl, rfl⟩ := Prod.mk.inj (Option.some.inj hp)
    exact ⟨rfl, rfl⟩
  have haccepts : Accepts env text ↔ env.peer.isSome ∧ ∃ method path protocolVersion,
      scanRequestLine env (text.take firstLineLength) = some (method, path, protocolVersion) ∧
        strToMethod method ≠ .unsupported := by
    unfold Accepts
    simp only [hline, Option.some.injEq, exists_and_left, exists_eq_left']
  rw [haccepts]
  unfold requestLineAnswer at hanswer
  cases hpeer : env.peer with
  | none =>
    rw [hpeer] at hanswer
    obtain ⟨rfl, hsame⟩ := hheaders hanswer
    exact ⟨iff_of_false Bool.false_ne_true (by simp), hsame⟩
  | some ip =>
    rw [hpeer] at hanswer
    cases hscan : scanRequestLine env (text.take firstLineLength) with
    | none =>
      rw [hscan, h] at hanswer
      cases hanswer
    | some scanned =>
      obtain ⟨method, path, protocolVersion⟩ := scanned
      rw [hscan] at hanswer
      obtain ⟨rfl, hsame⟩ := hheaders hanswer
      by_cases hmethod : strToMethod method = .unsupported
      · rw [if_pos hmethod] at hsame
        refine ⟨iff_of_false (by simpa using hmethod) ?_, by simpa [hmethod] using hsame⟩
        rintro ⟨-, _, _, _, hsome, hne⟩
        obtain ⟨rfl, -⟩ := Prod.mk.inj (Option.some.inj hsome)
        exact hne hmethod
      · rw [if_neg hmethod] at hsame
        refine ⟨iff_of_true (by simpa using hmethod) ?_, by simpa [hmethod] using hsame⟩
        exact ⟨rfl, method, path, protocolVersion, rfl, hmethod⟩

theorem processRequest_of_accepts (options : Options) (hc : c.requestBuffer.map cString = some text)
    (haccepts : Accepts env text) : ∃ c', processRequest options env c = some (true, c') := by
  obtain ⟨hpeer, firstLineLength, method, path, protocolVersion, hline, hscan, hmethod⟩ := haccepts
  obtain ⟨block, hblock, rfl⟩ := Option.map_eq_some_iff.mp hc
  obtain ⟨c', hc', -⟩ := processRequest_scanned hblock hpeer hline hscan
  rw [decide_eq_true hmethod] at hc'
  exact ⟨c', hc'⟩

end Answer

/-! ### Heads of requests -/

section Head

variable {options : Options} {env : RequestEnv} {c : QueueConnectionElementType} {head body : Bytes}
  {i firstLineLength : ℕ}

/-- A head with a header line in it: what follows is not searched. -/
theorem headersString_append (hend : strstr crlfcrlf head = some i) (hlen : i + 4 = head.length)
    (hline : strstr crlf head = some firstLineLength) (hne : firstLineLength ≠ i) (body : Bytes) :
    headersString (head ++ body) firstLineLength = headersString head firstLineLength := by
  obtain ⟨hp, hfirst⟩ := strstr_eq_some hline
  obtain ⟨hpend, -⟩ := strstr_eq_some hend
  have hcrlf : crlf <+: head.drop i := List.IsPrefix.trans ⟨crlf, rfl⟩ hpend
  have hlt : firstLineLength < i :=
    lt_of_le_of_ne (not_lt.mp fun hlt => hfirst i hlt hcrlf) hne
  -- the first CRLF and the last one do not overlap
  have hgap : firstLineLength + 2 ≤ i := by
    by_contra hgap
    obtain rfl : i = firstLineLength + 1 := by omega
    obtain ⟨r, hr⟩ := hp
    obtain ⟨r', hr'⟩ := hcrlf
    have hsame : (head.drop firstLineLength).drop 1 = head.drop (firstLineLength + 1) :=
      List.drop_drop
    rw [← hr, ← hr'] at hsame
    cases (List.cons.inj hsame).1
  have hfound : crlfcrlf <:+: head.drop (firstLineLength + 2) := by
    have hsuffix : head.drop i <:+ head.drop (firstLineLength + 2) := by
      rw [show i = firstLineLength + 2 + (i - (firstLineLength + 2)) by omega, ← List.drop_drop]
      exact List.drop_suffix _ _
    exact hpend.isInfix.trans hsuffix.isInfix
  obtain ⟨e, he⟩ := Option.isSome_iff_exists.mp (strstr_isSome.mpr hfound)
  have hbound := endOfHeaders_eq hend hlen he (by omega)
  unfold headersString
  rw [List.drop_append_of_le_length (by omega), strstr_append (by decide) he, he]
  dsimp only
  rw [List.drop_append_of_le_length (by omega), List.take_append_of_le_length]
  rw [List.length_drop]
  omega

/-- A head without header lines, and a body that looks like header lines. -/
theorem headersString_headless (hend : strstr crlfcrlf head = some i) (hlen : i + 4 = head.length) :
    headersString (head ++ []) i = [] ∧
      headersString (head ++ bytes "x: y\r\n\r\n") i = crlfcrlf ++ bytes "x: y\r\n\r\n" := by
  obtain ⟨r, hr⟩ := (strstr_eq_some hend).1
  have hr0 : r = [] := by
    have := congrArg List.length hr
    rw [List.length_append, List.length_drop, show crlfcrlf.length = 4 from rfl] at this
    exact List.eq_nil_of_length_eq_zero (by omega)
  rw [hr0, List.append_nil] at hr
  have hdrop : head.drop (i + 2) = crlf := by
    rw [← List.drop_drop, ← hr]
    rfl
  have hsearch : strstr crlfcrlf crlf = none := by decide
  have hsearch' : strstr crlfcrlf (crlf ++ bytes "x: y\r\n\r\n") = some 6 := by decide +kernel
  unfold headersString
  constructor
  · rw [List.append_nil, hdrop, hsearch]
  · rw [List.drop_append_of_le_length (by omega), hdrop, hsearch',
      List.drop_append_of_le_length (by omega), ← hr]
    exact List.take_of_length_le (by decide +kernel)

theorem headersLoop_ne (headers : List Header) :
    headersLoop (crlfcrlf ++ bytes "x: y\r\n\r\n") headers ≠ headers := by
  have htokens : strtok isLineBreak (crlfcrlf ++ bytes "x: y\r\n\r\n") ≠ [] := by
    have hstart : (crlfcrlf ++ bytes "x: y\r\n\r\n").dropWhile isLineBreak =
        120 :: bytes ": y\r\n\r\n" := by decide +kernel
    rw [strtok_of_cons hstart]
    exact List.cons_ne_nil _ _
  rw [headersLoop_eq]
  intro h
  have hlen := congrArg List.length h
  rw [List.length_append, List.length_reverse, List.length_map] at hlen
  exact htokens (List.eq_nil_of_length_eq_zero (by omega))

/-- A request line and nothing else. -/
def headlessRequest : Bytes := bytes "GET / HTTP/1.1\r\n\r\n"

end Head

end UbServer

import UbServer.Delivery

/-!
# The request line

What `processRequest` makes of the first line of a request, whatever its local arrays held before
`sscanf` wrote them.

* `RequestLineGrammar`: three tokens, each of which fits, and nothing else in the answer.
* `requestLineGrammar_iff`: the request lines for which that is so.
-/

namespace UbServer

open CString

/-- The tokens of the request line in a block. -/
def requestLineTokens (block : Bytes) : List Bytes :=
  scanWords 3 ((cString block).take ((strstr crlf (cString block)).getD 0))

/-- The sizes of the arrays for the method, the path and the protocol version. -/
def tokenSizes : List ℕ := [10, requestPathMaxSize, 9]

/-- **Request-line grammar** of the request in a block, with `getpeername` succeeding. -/
structure RequestLineGrammar (block : Bytes) : Prop where
  accepted : ∀ options env c c', c.requestBuffer = some block → env.peer.isSome →
    processRequest options env c = some (true, c') →
      ∃ method path protocolVersion,
        requestLineTokens block = [method, path, protocolVersion] ∧
          strToMethod method ≠ .unsupported ∧ c'.method = strToMethod method ∧
          c'.path = some path ∧ c'.protocolVersion = protocolVersion
  fits : ∀ (i : ℕ) (token : Bytes) (size : ℕ), (requestLineTokens block)[i]? = some token →
    tokenSizes[i]? = some size → token.length < size
  defined : ∀ options env env' c, c.requestBuffer = some block → env.peer.isSome →
    env'.peer = env.peer → processRequest options env' c = processRequest options env c

section Grammar

variable {options : Options} {env : RequestEnv} {c : QueueConnectionElementType}
  {block method path protocolVersion : Bytes}

theorem length_scanWords_le (n : ℕ) (s : List UInt8) : (scanWords n s).length ≤ n := by
  induction n generalizing s with
  | zero => exact Nat.le_refl 0
  | succ n ih =>
    unfold scanWords
    split
    · exact Nat.zero_le _
    · exact Nat.succ_le_succ (ih _)

theorem exists_strstr_crlf {text : Bytes} (h : crlfcrlf <:+: text) :
    ∃ firstLineLength, strstr crlf text = some firstLineLength := by
  have hcrlf : crlf <:+: crlfcrlf := ⟨[], crlf, rfl⟩
  exact Option.isSome_iff_exists.mp (strstr_isSome.mpr (hcrlf.trans h))

theorem processRequest_scanned (hblock : c.requestBuffer = some block) (hpeer : env.peer.isSome)
    {firstLineLength : ℕ} (hcrlf : strstr crlf (cString block) = some firstLineLength)
    (hscan : scanRequestLine env ((cString block).take firstLineLength) =
      some (method, path, protocolVersion)) :
    ∃ c', processRequest options env c = some (decide (strToMethod method ≠ .unsupported), c') ∧
      c'.method = strToMethod method ∧ c'.path = some path ∧
      c'.protocolVersion = protocolVersion := by
  obtain ⟨ip, hip⟩ := Option.isSome_iff_exists.mp hpeer
  unfold processRequest
  simp only [hblock, Option.bind_eq_bind, Option.bind_some, hip, hcrlf, hscan]
  by_cases hmethod : strToMethod method = .unsupported
  · simp only [hmethod, ne_eq, not_true_eq_false, decide_false]
    exact ⟨_, rfl, rfl, rfl, rfl⟩
  · simp only [ne_eq, hmethod, not_false_eq_true, decide_true]
    refine ⟨_, rfl, ?_⟩
    unfold processHeaders
    simp only
    split <;> exact ⟨rfl, rfl, rfl⟩

theorem processRequest_accepted {c' : QueueConnectionElementType}
    (h : processRequest options env c = some (true, c')) :
    ∃ block firstLineLength method path protocolVersion, c.requestBuffer = some block ∧
      env.peer.isSome ∧ strstr crlf (cString block) = some firstLineLength ∧
      scanRequestLine env ((cString block).take firstLineLength) =
        some (method, path, protocolVersion) ∧ strToMethod method ≠ .unsupported := by
  unfold processRequest at h
  obtain ⟨block, hblock, h⟩ := Option.bind_eq_some_iff.mp h
  cases hpeer : env.peer with
  | none =>
    rw [hpeer] at h
    cases h
  | some ip =>
    rw [hpeer] at h
    cases hcrlf : strstr crlf (cString block) with
    | none =>
      simp only [hcrlf] at h
      cases h
    | some firstLineLength =>
      simp only [hcrlf] at h
      obtain ⟨⟨method, path, protocolVersion⟩, hscan, h⟩ := Option.bind_eq_some_iff.mp h
      refine ⟨block, firstLineLength, method, path, protocolVersion, hblock, rfl, hcrlf, hscan, ?_⟩
      intro hmethod
      simp only [hmethod, if_true] at h
      cases h

theorem processRequest_congr {env' : RequestEnv} (hpeer : env'.peer = env.peer)
    (hscan : ∀ line, strstr crlf (cString block) = some line →
      scanRequestLine env' ((cString block).take line) =
        scanRequestLine env ((cString block).take line))
    (hblock : c.requestBuffer = some block) :
    processRequest options env' c = processRequest options env c := by
  unfold processRequest
  simp only [hblock, Option.bind_eq_bind, Option.bind_some, hpeer]
  cases env.peer with
  | none => rfl
  | some ip =>
    cases hcrlf : strstr crlf (cString block) with
    | none => rfl
    | some line => simp only [hscan line hcrlf]

theorem scanRequestLine_inv {line : Bytes}
    (h : scanRequestLine env line = some (method, path, protocolVersion)) :
    (method = (scanWords 3 line).getD 0 env.method ∧ method.length < 10) ∧
      (path = (scanWords 3 line).getD 1 env.path ∧ path.length < requestPathMaxSize) ∧
      protocolVersion = (scanWords 3 line).getD 2 env.protocolVersion ∧
        protocolVersion.length < 9 := by
  unfold scanRequestLine at h
  obtain ⟨method', hmethod, h⟩ := Option.bind_eq_some_iff.mp h
  obtain ⟨path', hpath, h⟩ := Option.bind_eq_some_iff.mp h
  obtain ⟨version', hversion, h⟩ := Option.bind_eq_some_iff.mp h
  obtain ⟨rfl, rfl, rfl⟩ : method' = method ∧ path' = path ∧ version' = protocolVersion := by
    simpa using Option.some.inj h
  exact ⟨fits_inv hmethod, fits_inv hpath, fits_inv hversion⟩

/-- With fewer than three tokens, the protocol version is what its array held before. -/
theorem scanRequestLine_short {line : Bytes} (hshort : (scanWords 3 line).length < 3)
    (hfits : ∀ (i : ℕ) (token : Bytes) (size : ℕ), (scanWords 3 line)[i]? = some token →
      tokenSizes[i]? = some size → token.length < size) (ip version : Bytes)
    (hversion : version.length < 9) :
    ∃ method path, scanRequestLine ⟨some ip, [], [], version⟩ line =
      some (method, path, version) := by
  have hgetD : ∀ i size, tokenSizes[i]? = some size → 0 < size →
      ((scanWords 3 line).getD i []).length < size := by
    intro i size hsize hpos
    rw [List.getD_eq_getElem?_getD]
    cases htoken : (scanWords 3 line)[i]? with
    | none => exact hpos
    | some token => exact hfits i token size htoken hsize
  have hlast : (scanWords 3 line).getD 2 version = version := by
    rw [List.getD_eq_getElem?_getD, List.getElem?_eq_none (Nat.le_of_lt_succ hshort)]
    rfl
  have hmethod := hgetD 0 10 rfl (by decide)
  have hpath := hgetD 1 requestPathMaxSize rfl (by decide)
  refine ⟨(scanWords 3 line).getD 0 [], (scanWords 3 line).getD 1 [], ?_⟩
  unfold scanRequestLine
  simp only [hlast, fits_of_lt hmethod, fits_of_lt hpath, fits_of_lt hversion]
  rfl

theorem requestLineTokens_eq {firstLineLength : ℕ}
    (hcrlf : strstr crlf (cString block) = some firstLineLength) :
    requestLineTokens block = scanWords 3 ((cString block).take firstLineLength) := by
  unfold requestLineTokens
  rw [hcrlf]
  rfl

/-- With fewer than three tokens, the array for the version shows in the answer. -/
theorem RequestLineGrammar.three_tokens (h : RequestLineGrammar block)
    (hend : crlfcrlf <:+: cString block) : ¬ (requestLineTokens block).length < 3 := by
  intro hshort
  obtain ⟨firstLineLength, hcrlf⟩ := exists_strstr_crlf hend
  have hfits := h.fits
  rw [requestLineTokens_eq hcrlf] at hshort hfits
  have hversion : ∀ version : Bytes, version.length < 9 → ∃ valid c',
      processRequest wwwOptions ⟨some [], [], [], version⟩
        { emptyConnection with requestBuffer := some block } = some (valid, c') ∧
      c'.protocolVersion = version := by
    intro version hlen
    obtain ⟨method, path, hscan⟩ := scanRequestLine_short hshort hfits [] version hlen
    obtain ⟨c', hc, -, -, hv⟩ : ∃ c', processRequest wwwOptions ⟨some [], [], [], version⟩
        { emptyConnection with requestBuffer := some block } =
          some (decide (strToMethod method ≠ .unsupported), c') ∧
        c'.method = strToMethod method ∧ c'.path = some path ∧ c'.protocolVersion = version :=
      processRequest_scanned rfl rfl hcrlf hscan
    exact ⟨_, c', hc, hv⟩
  obtain ⟨valid₁, c₁, h₁, hv₁⟩ := hversion [] (by decide)
  obtain ⟨valid₂, c₂, h₂, hv₂⟩ := hversion [65] (by decide)
  have hsame := h.defined wwwOptions ⟨some [], [], [], []⟩ ⟨some [], [], [], [65]⟩
    { emptyConnection with requestBuffer := some block } rfl rfl rfl
  obtain ⟨-, rfl⟩ := Prod.mk.inj (Option.some.inj (h₂.symm.trans (hsame.trans h₁)))
  rw [hv₁] at hv₂
  cases hv₂

theorem RequestLineGrammar.requestLine (h : RequestLineGrammar block)
    (hend : crlfcrlf <:+: cString block) :
    ∃ method path protocolVersion, RequestLine block method path protocolVersion := by
  have hlong := not_lt.mp (h.three_tokens hend)
  have hfits := h.fits
  obtain ⟨firstLineLength, hcrlf⟩ := exists_strstr_crlf hend
  rw [requestLineTokens_eq hcrlf] at hlong hfits
  have hle := length_scanWords_le 3 ((cString block).take firstLineLength)
  obtain ⟨method, path, protocolVersion, hthree⟩ := List.length_eq_three.mp (le_antisymm hle hlong)
  rw [hthree] at hfits
  exact ⟨method, path, protocolVersion, firstLineLength, hcrlf, hthree, hfits 0 _ 10 rfl rfl,
    hfits 1 _ _ rfl rfl, hfits 2 _ 9 rfl rfl⟩

theorem RequestLine.grammar (h : RequestLine block method path protocolVersion) :
    RequestLineGrammar block := by
  obtain ⟨firstLineLength, hcrlf, hthree, hmethod, hpath, hversion⟩ := h
  have htokens := requestLineTokens_eq hcrlf
  have hscan : ∀ env, scanRequestLine env ((cString block).take firstLineLength) =
      some (method, path, protocolVersion) :=
    fun env => scanRequestLine_eq hthree hmethod hpath hversion
  refine ⟨fun options env c c' hblock hpeer haccepted => ?_, fun i token size htoken hsize => ?_,
    fun options env env' c hblock _ hpeer => ?_⟩
  · obtain ⟨c₁, hc₁, hfields⟩ := processRequest_scanned hblock hpeer hcrlf (hscan env)
    obtain ⟨hsupported, rfl⟩ := Prod.mk.inj (Option.some.inj (hc₁.symm.trans haccepted))
    exact ⟨method, path, protocolVersion, htokens.trans hthree, of_decide_eq_true hsupported,
      hfields⟩
  · rw [htokens, hthree] at htoken
    match i, htoken, hsize with
    | 0, htoken, hsize =>
      obtain rfl := Option.some.inj htoken
      obtain rfl := Option.some.inj hsize
      exact hmethod
    | 1, htoken, hsize =>
      obtain rfl := Option.some.inj htoken
      obtain rfl := Option.some.inj hsize
      exact hpath
    | 2, htoken, hsize =>
      obtain rfl := Option.some.inj htoken
      obtain rfl := Option.some.inj hsize
      exact hversion
  · refine processRequest_congr hpeer (fun line hline => ?_) hblock
    obtain rfl := Option.some.inj (hcrlf.symm.trans hline)
    rw [hscan env', hscan env]

/-- **The request lines** that are treated by their tokens alone are those with at least three tokens
of which the first has less than 10 bytes, the second less than 4096 and the third less than 9. -/
theorem requestLineGrammar_iff (block : Bytes) (hend : crlfcrlf <:+: cString block) :
    RequestLineGrammar block ↔
      ∃ method path protocolVersion, RequestLine block method path protocolVersion := by
  constructor
  · intro h
    exact h.requestLine hend
  · rintro ⟨method, path, protocolVersion, h⟩
    exact h.grammar

end Grammar

/-- A request line without a version. -/
def shortRequest : Bytes := bytes "GET /\r\n\r\n" ++ [0]

/-- Its version is what the array for the version held. -/
theorem requestLineGrammar_shortRequest :
    ¬ ∀ block : Bytes, (0 : UInt8) ∈ block → crlfcrlf <:+: cString block →
      RequestLineGrammar block := by
  intro h
  have hsame := (h shortRequest (by decide +kernel) (by decide +kernel)).defined wwwOptions
    ⟨some [], [], [], bytes "HTTP/1.0"⟩ ⟨some [], [], [], bytes "HTTP/1.1"⟩
    { emptyConnection with requestBuffer := some shortRequest } rfl rfl rfl
  revert hsame
  decide +kernel

/-- A request line with three tokens. -/
theorem requestLineGrammar_indexPage : RequestLineGrammar (indexPageRequest ++ [0]) :=
  (requestLineGrammar_iff _ (by decide +kernel)).mpr
    ⟨bytes "GET", bytes "/", bytes "HTTP/1.1", 14, by decide +kernel⟩

end UbServer

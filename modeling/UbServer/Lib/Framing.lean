import UbServer.Lib.CString

/-!
# Messages on a stream

Messages are written one behind the other; the receiver cuts them out of what has come in so far.

* `StreamCode`: a code whose decoder finds a message where one is written and nowhere else.
* `StreamCode.decodeAll`: the messages that are complete, and what there is of the next one.
* `decodeAll_iff`: they are those that were written; `decodeAll_cases`: what a receiver has while
  the last message is on its way.
* `Delimited`: a message of a head, which ends where a terminator is found, and a body of the length
  that the head gives.
-/

namespace Framing

/-! ### Codes -/

/-- A code for messages of type `μ` on streams over `α`. -/
structure StreamCode (α μ : Type*) where
  render : μ → List α
  decode : List α → Option (μ × List α)
  decode_iff : ∀ {l m rest}, decode l = some (m, rest) ↔ l = render m ++ rest
  render_ne_nil : ∀ m, render m ≠ []

namespace StreamCode

variable {α μ : Type*} (code : StreamCode α μ)

/-- At most `n` messages from the start of a stream. -/
def decodeUpTo : ℕ → List α → List μ × List α
  | 0, l => ([], l)
  | n + 1, l =>
    match code.decode l with
    | none => ([], l)
    | some (m, rest) => (m :: (decodeUpTo n rest).1, (decodeUpTo n rest).2)

/-- The complete messages at the start of a stream, and what follows them. -/
def decodeAll (l : List α) : List μ × List α := code.decodeUpTo l.length l

variable {code} {l p rest rest' : List α} {m m' : μ} {ms ms' : List μ}

theorem decode_render (m : μ) (rest : List α) :
    code.decode (code.render m ++ rest) = some (m, rest) := code.decode_iff.mpr rfl

/-- **Where a message ends is decided by the stream.** -/
theorem render_append_inj (h : code.render m ++ rest = code.render m' ++ rest') :
    m = m' ∧ rest = rest' := by
  have hm := code.decode_render m rest
  rw [h, code.decode_render m' rest'] at hm
  obtain ⟨h₁, h₂⟩ := Prod.mk.inj (Option.some.inj hm)
  exact ⟨h₁.symm, h₂.symm⟩

/-- A part of a message is no message. -/
theorem decode_of_prefix (hp : p <+: code.render m) (hne : p ≠ code.render m) :
    code.decode p = none := by
  cases hd : code.decode p with
  | none => rfl
  | some r =>
    obtain ⟨m', rest⟩ := r
    obtain ⟨t, ht⟩ := hp
    have hl := code.decode_iff.mp hd
    rw [hl, List.append_assoc] at ht
    have hinj : code.render m' ++ (rest ++ t) = code.render m ++ [] := by
      rw [ht, List.append_nil]
    obtain ⟨rfl, htail⟩ := render_append_inj hinj
    rw [(List.append_eq_nil_iff.mp htail).1, List.append_nil] at hl
    exact absurd hl hne

theorem decode_nil : code.decode [] = none := by
  cases hd : code.decode [] with
  | none => rfl
  | some r =>
    obtain ⟨m, rest⟩ := r
    have hl := code.decode_iff.mp hd
    exact absurd (List.append_eq_nil_iff.mp hl.symm).1 (code.render_ne_nil m)

theorem length_lt_of_decode (h : code.decode l = some (m, rest)) : rest.length < l.length := by
  have hpos := List.length_pos_of_ne_nil (code.render_ne_nil m)
  rw [code.decode_iff.mp h, List.length_append]
  omega

theorem decodeUpTo_iff {n : ℕ} (hn : l.length ≤ n) :
    code.decodeUpTo n l = (ms, rest) ↔
      l = ms.flatMap code.render ++ rest ∧ code.decode rest = none := by
  induction n generalizing l ms with
  | zero =>
    obtain rfl := List.eq_nil_of_length_eq_zero (Nat.le_zero.mp hn)
    unfold decodeUpTo
    constructor
    · intro h
      obtain ⟨rfl, rfl⟩ := Prod.mk.inj h
      exact ⟨rfl, decode_nil⟩
    · rintro ⟨h, -⟩
      obtain ⟨hms, rfl⟩ := List.append_eq_nil_iff.mp h.symm
      cases ms with
      | nil => rfl
      | cons m ms => exact absurd (List.append_eq_nil_iff.mp hms).1 (code.render_ne_nil m)
  | succ n ih =>
    unfold decodeUpTo
    cases hd : code.decode l with
    | none =>
      simp only
      constructor
      · intro h
        obtain ⟨rfl, rfl⟩ := Prod.mk.inj h
        exact ⟨rfl, hd⟩
      · rintro ⟨rfl, -⟩
        cases ms with
        | nil => rfl
        | cons m ms =>
          rw [List.flatMap_cons, List.append_assoc, code.decode_render] at hd
          cases hd
    | some r =>
      obtain ⟨m, l'⟩ := r
      have hlt := length_lt_of_decode hd
      simp only
      constructor
      · intro h
        obtain ⟨rfl, hrest⟩ := Prod.mk.inj h
        have hrec : code.decodeUpTo n l' = ((code.decodeUpTo n l').1, rest) := Prod.ext rfl hrest
        obtain ⟨hl', hnone⟩ := (ih (by omega)).mp hrec
        refine ⟨?_, hnone⟩
        rw [List.flatMap_cons, List.append_assoc, ← hl']
        exact code.decode_iff.mp hd
      · rintro ⟨hl, hnone⟩
        cases ms with
        | nil =>
          obtain rfl : l = rest := hl
          rw [hnone] at hd
          cases hd
        | cons m' ms =>
          rw [List.flatMap_cons, List.append_assoc] at hl
          rw [hl, code.decode_render] at hd
          obtain ⟨rfl, rfl⟩ := Prod.mk.inj (Option.some.inj hd)
          have htail := (ih (Nat.le_of_lt_succ (hlt.trans_le hn))).mpr ⟨rfl, hnone⟩
          rw [htail]

/-- **The messages read are those that were written**, and the rest is the start of no message that
is complete. -/
theorem decodeAll_iff :
    code.decodeAll l = (ms, rest) ↔
      l = ms.flatMap code.render ++ rest ∧ code.decode rest = none :=
  decodeUpTo_iff le_rfl

theorem decodeAll_flatMap (ms : List μ) : code.decodeAll (ms.flatMap code.render) = (ms, []) :=
  decodeAll_iff.mpr ⟨(List.append_nil _).symm, decode_nil⟩

/-- What is on the stream behind complete messages does not change what they are read as. -/
theorem prefix_decodeAll (ms : List μ) (rest : List α) :
    ms <+: (code.decodeAll (ms.flatMap code.render ++ rest)).1 := by
  obtain ⟨hl, hnone⟩ := code.decodeAll_iff.mp
    (Prod.eta (code.decodeAll (ms.flatMap code.render ++ rest))).symm
  generalize (code.decodeAll (ms.flatMap code.render ++ rest)).1 = ms' at hl ⊢
  generalize (code.decodeAll (ms.flatMap code.render ++ rest)).2 = rest' at hl hnone
  induction ms generalizing ms' with
  | nil => exact List.nil_prefix
  | cons m ms ih =>
    rw [List.flatMap_cons, List.append_assoc] at hl
    cases ms' with
    | nil =>
      obtain rfl : _ = rest' := hl
      rw [code.decode_render] at hnone
      cases hnone
    | cons m' ms' =>
      rw [List.flatMap_cons, List.append_assoc] at hl
      obtain ⟨rfl, htail⟩ := render_append_inj hl
      exact List.cons_prefix_cons.mpr ⟨rfl, ih ms' htail⟩

/-- What has come in of a stream is read as the first of its messages. -/
theorem decodeAll_of_prefix (h : l <+: ms.flatMap code.render) : (code.decodeAll l).1 <+: ms := by
  obtain ⟨later, hlater⟩ := h
  obtain ⟨hl, -⟩ := code.decodeAll_iff.mp (Prod.eta (code.decodeAll l)).symm
  have hread := code.prefix_decodeAll (code.decodeAll l).1 ((code.decodeAll l).2 ++ later)
  rw [← List.append_assoc, ← hl, hlater, decodeAll_flatMap] at hread
  exact hread

/-- **While the last message is on its way**, the receiver has all of them, or all but the last and a
part of that one. -/
theorem decodeAll_cases (hcomplete : ms.dropLast.flatMap code.render <+: l)
    (hwritten : l <+: ms.flatMap code.render) :
    code.decodeAll l = (ms, []) ∨
      ∃ m p, ms = ms.dropLast ++ [m] ∧ code.decodeAll l = (ms.dropLast, p) ∧
        p <+: code.render m ∧ p ≠ code.render m := by
  rcases List.eq_nil_or_concat' ms with rfl | ⟨ms, m, rfl⟩
  · obtain rfl := List.prefix_nil.mp hwritten
    exact Or.inl (code.decodeAll_flatMap [])
  · rw [List.dropLast_concat] at hcomplete ⊢
    rw [List.flatMap_append, List.flatMap_singleton] at hwritten
    obtain ⟨p, rfl⟩ := hcomplete
    rw [List.prefix_append_right_inj] at hwritten
    by_cases hp : p = code.render m
    · refine Or.inl (code.decodeAll_iff.mpr ⟨?_, decode_nil⟩)
      rw [List.flatMap_append, List.flatMap_singleton, List.append_nil, hp]
    · have hwaits := decode_of_prefix hwritten hp
      exact Or.inr ⟨m, p, rfl, code.decodeAll_iff.mpr ⟨rfl, hwaits⟩, hwritten, hp⟩

end StreamCode

/-! ### A head and a body -/

/-- A head in which the terminator is found at the end and nowhere before it, and a body of the length
that the head gives. -/
@[ext]
structure Delimited {α : Type*} [DecidableEq α] (terminator : List α)
    (lengthOf : List α → Option ℕ) where
  head : List α
  body : List α
  ends : (CString.strstr terminator head).map (· + terminator.length) = some head.length
  length : lengthOf head = some body.length

namespace Delimited

open CString

variable {α : Type*} [DecidableEq α] {terminator : List α} {lengthOf : List α → Option ℕ}

def render (m : Delimited terminator lengthOf) : List α := m.head ++ m.body

/-- The message of these two parts. -/
def ofParts (head body : List α) : Option (Delimited terminator lengthOf) :=
  if h : (strstr terminator head).map (· + terminator.length) = some head.length ∧
      lengthOf head = some body.length then some ⟨head, body, h.1, h.2⟩
  else none

/-- Read the head, then as much as it gives the length of. -/
def decode (l : List α) : Option (Delimited terminator lengthOf × List α) :=
  (strstr terminator l).bind fun i =>
    let head := l.take (i + terminator.length)
    let rest := l.drop (i + terminator.length)
    (lengthOf head).bind fun n => (ofParts head (rest.take n)).map fun m => (m, rest.drop n)

theorem ofParts_parts (m : Delimited terminator lengthOf) : ofParts m.head m.body = some m :=
  dif_pos ⟨m.ends, m.length⟩

theorem ofParts_inv {head body : List α} {m : Delimited terminator lengthOf}
    (h : ofParts head body = some m) : m.head = head ∧ m.body = body := by
  unfold ofParts at h
  split at h
  · obtain rfl := Option.some.inj h
    exact ⟨rfl, rfl⟩
  · cases h

theorem decode_iff (hne : terminator ≠ []) {l rest : List α} {m : Delimited terminator lengthOf} :
    decode l = some (m, rest) ↔ l = m.render ++ rest := by
  unfold decode render
  constructor
  · intro h
    obtain ⟨i, -, h⟩ := Option.bind_eq_some_iff.mp h
    obtain ⟨n, -, h⟩ := Option.bind_eq_some_iff.mp h
    obtain ⟨m', hm, h⟩ := Option.map_eq_some_iff.mp h
    obtain ⟨rfl, rfl⟩ := Prod.mk.inj h
    obtain ⟨hhead, hbody⟩ := ofParts_inv hm
    rw [hhead, hbody, List.append_assoc, List.take_append_drop, List.take_append_drop]
  · rintro rfl
    obtain ⟨i, hi, hends⟩ := Option.map_eq_some_iff.mp m.ends
    rw [List.append_assoc, strstr_append hne hi, Option.bind_some]
    simp only [hends, List.take_left, List.drop_left, m.length, Option.bind_some, ofParts_parts,
      Option.map_some]

theorem render_ne_nil (hne : terminator ≠ []) (m : Delimited terminator lengthOf) : m.render ≠ [] := by
  obtain ⟨i, -, hends⟩ := Option.map_eq_some_iff.mp m.ends
  have hpos := List.length_pos_of_ne_nil hne
  have hhead : m.head ≠ [] := List.ne_nil_of_length_pos (by omega)
  exact List.append_ne_nil_of_left_ne_nil hhead _

/-- Delimited messages are a code. -/
def code (hne : terminator ≠ []) : StreamCode α (Delimited terminator lengthOf) where
  render := render
  decode := decode
  decode_iff := decode_iff hne
  render_ne_nil := render_ne_nil hne

/-! ### Heads of lines -/

section Lines

variable {x : α}

theorem strstr_lines {lines : List (List α)} (hlines : ∀ line ∈ lines, x ∉ line ∧ line ≠ [])
    (hne : lines ≠ []) :
    (strstr [x, x] ((lines.map (· ++ [x])).flatten ++ [x])).map (· + 2) =
      some ((lines.map (· ++ [x])).flatten ++ [x]).length := by
  induction lines with
  | nil => exact absurd rfl hne
  | cons line lines ih =>
    obtain ⟨⟨hx, hline⟩, hlines⟩ := List.forall_mem_cons.mp hlines
    rw [List.map_cons, List.flatten_cons, List.append_assoc, List.append_assoc,
      strstr_append_of_not_mem hx]
    by_cases hlast : lines = []
    · subst hlast
      have hfound : strstr [x, x] ([x] ++ [x]) = some 0 := strstr_self_append x [x] []
      simp only [List.map_nil, List.flatten_nil, List.nil_append, hfound]
      simp
    · have hfollow : ∃ y s, (lines.map (· ++ [x])).flatten ++ [x] = y :: s ∧ y ≠ x := by
        obtain ⟨line', lines', rfl⟩ := List.exists_cons_of_ne_nil hlast
        obtain ⟨hx', hline'⟩ := hlines line' List.mem_cons_self
        obtain ⟨y, s, rfl⟩ := List.exists_cons_of_ne_nil hline'
        refine ⟨y, _, rfl, ?_⟩
        rintro rfl
        exact hx' List.mem_cons_self
      have hskip : strstr [x, x] ([x] ++ ((lines.map (· ++ [x])).flatten ++ [x])) =
          (strstr [x, x] ((lines.map (· ++ [x])).flatten ++ [x])).map (· + 1) := by
        obtain ⟨y, s, hy, hyx⟩ := hfollow
        rw [hy, List.singleton_append, strstr, if_neg]
        intro hp
        exact hyx (List.cons_prefix_cons.mp (List.cons_prefix_cons.mp hp).2).1.symm
      obtain ⟨i, hi, hlength⟩ := Option.map_eq_some_iff.mp (ih hlines hlast)
      rw [hskip, hi]
      simp only [Option.map_some, Option.some.injEq, List.length_append, List.length_singleton]
        at hlength ⊢
      omega

end Lines

end Delimited

end Framing

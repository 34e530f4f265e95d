import Mathlib.Data.List.Infix
import Mathlib.Data.List.TakeWhile
import Mathlib.Tactic.Common

/-!
# The C string functions on lists of bytes

A block of memory is a list of bytes; the string that starts at its first byte is `cString`, the
bytes before the first NUL. A pointer into a string is a position, or the suffix it points to.

* `strstr needle s`: the position of the first occurrence.
* `strtok delim s`: the suffixes that the tokens between delimiters start.
* `strcspn reject s`: the length of the initial part without a byte of `reject`.
* `scanWords n s`: what `n` conversions `%s` of `sscanf` store.
* `writeAt`: the block after storing bytes at an offset.
* `snprintf`: the block after printing a text into a part of it.
-/

namespace CString

/-! ### Blocks -/

/-- The string that starts at the first byte of a block. -/
def cString (block : List UInt8) : List UInt8 := block.takeWhile (· ≠ 0)

/-- The block after storing `data` from `offset` on. -/
def writeAt {α : Type*} (block : List α) (offset : ℕ) (data : List α) : List α :=
  block.take offset ++ data ++ block.drop (offset + data.length)

theorem cString_append_nul {s : List UInt8} (hs : (0 : UInt8) ∉ s) (rest : List UInt8) :
    cString (s ++ 0 :: rest) = s := by
  unfold cString
  rw [List.takeWhile_append_of_pos (fun a ha => by
    simp only [ne_eq, decide_eq_true_eq]; rintro rfl; exact hs ha)]
  simp

theorem cString_nul_append (s rest : List UInt8) : cString (s ++ 0 :: rest) = cString s := by
  induction s with
  | nil => simp [cString]
  | cons a s ih =>
    by_cases ha : a = 0
    · simp [cString, ha]
    · unfold cString at ih ⊢
      rw [List.cons_append, List.takeWhile_cons_of_pos (by simpa using ha),
        List.takeWhile_cons_of_pos (by simpa using ha), ih]

theorem cString_of_not_mem {s : List UInt8} (hs : (0 : UInt8) ∉ s) : cString s = s := by
  unfold cString
  rw [List.takeWhile_eq_self_iff]
  intro a ha
  simp only [ne_eq, decide_eq_true_eq]
  rintro rfl
  exact hs ha

theorem nul_notMem_cString (block : List UInt8) : (0 : UInt8) ∉ cString block := fun h =>
  absurd (List.mem_takeWhile_imp h) (by decide)

theorem cString_append {s : List UInt8} (hs : (0 : UInt8) ∉ s) (rest : List UInt8) :
    cString (s ++ rest) = s ++ cString rest := by
  unfold cString
  rw [List.takeWhile_append_of_pos]
  intro a ha
  simp only [ne_eq, decide_eq_true_eq]
  rintro rfl
  exact hs ha

/-- The string in a block ends at its first NUL, or not in the block. -/
theorem length_cString (block : List UInt8) :
    (cString block).length < block.length ↔ (0 : UInt8) ∈ block := by
  induction block with
  | nil => simp [cString]
  | cons a block ih =>
    by_cases ha : a = 0
    · subst ha
      simp [cString]
    · have hcons : cString (a :: block) = a :: cString block := by simp [cString, ha]
      rw [hcons, List.length_cons, List.length_cons, Nat.add_lt_add_iff_right, ih,
        List.mem_cons, or_iff_right (Ne.symm ha)]

theorem writeAt_append {α : Type*} (s data old rest : List α) (h : old.length = data.length) :
    writeAt (s ++ (old ++ rest)) s.length data = s ++ (data ++ rest) := by
  unfold writeAt
  rw [← h, List.take_left, ← List.drop_drop, List.drop_left, List.drop_left, List.append_assoc]

@[simp] theorem length_writeAt {α : Type*} {block data : List α} {offset : ℕ}
    (h : offset + data.length ≤ block.length) : (writeAt block offset data).length = block.length := by
  unfold writeAt
  simp only [List.length_append, List.length_take, List.length_drop]
  omega

/-- `snprintf(block + offset, size, "%s", text)`: what fits is stored with a NUL behind it. `none` is
a store outside the block. -/
def snprintf (block : List UInt8) (offset size : ℕ) (text : List UInt8) : Option (List UInt8) :=
  if size = 0 then some block
  else
    let stored := text.take (size - 1) ++ [0]
    if offset + stored.length ≤ block.length then some (writeAt block offset stored) else none

theorem snprintf_of_lt {s old text : List UInt8} {size : ℕ} (hold : old.length = size)
    (h : text.length < size) :
    snprintf (s ++ old) s.length size text = some (s ++ (text ++ 0 :: old.drop (text.length + 1))) := by
  have htake : text.take (size - 1) = text := List.take_of_length_le (by omega)
  have hwrite : writeAt (s ++ old) s.length (text ++ [0]) =
      s ++ (text ++ 0 :: old.drop (text.length + 1)) := by
    have hstore := writeAt_append s (text ++ [0]) (old.take (text.length + 1))
      (old.drop (text.length + 1)) (by simp; omega)
    rw [List.take_append_drop, List.append_assoc text, List.singleton_append] at hstore
    exact hstore
  unfold snprintf
  dsimp only
  rw [if_neg (by omega), htake, hwrite, if_pos]
  simp only [List.length_append, List.length_singleton]
  omega

theorem snprintf_start {block text : List UInt8} {size : ℕ} (hblock : block.length = size)
    (h : text.length < size) :
    snprintf block 0 size text = some (text ++ 0 :: block.drop (text.length + 1)) :=
  snprintf_of_lt (s := []) hblock h

theorem snprintf_fill {s old text : List UInt8} (hold : old.length = text.length + 1) :
    snprintf (s ++ old) s.length (text.length + 1) text = some (s ++ text ++ [0]) := by
  have hdrop : old.drop (text.length + 1) = [] := List.drop_of_length_le hold.le
  rw [snprintf_of_lt hold (Nat.lt_succ_self _), hdrop, List.append_assoc]

/-! ### Searching -/

section Search

variable {α : Type*} [DecidableEq α] {needle s r : List α} {i : ℕ}

/-- `strstr`: the position of the first occurrence of `needle`. -/
def strstr (needle : List α) : List α → Option ℕ
  | [] => if needle = [] then some 0 else none
  | a :: s => if needle <+: a :: s then some 0 else (strstr needle s).map (· + 1)

theorem strstr_eq_some : strstr needle s = some i →
    needle <+: s.drop i ∧ ∀ j < i, ¬ needle <+: s.drop j := by
  induction s generalizing i with
  | nil =>
    intro h
    unfold strstr at h
    split at h
    · obtain rfl := Option.some.inj h
      subst needle
      exact ⟨List.nil_prefix, fun j hj => absurd hj (Nat.not_lt_zero j)⟩
    · cases h
  | cons a s ih =>
    intro h
    unfold strstr at h
    split at h
    · rename_i hp
      obtain rfl := Option.some.inj h
      exact ⟨hp, fun j hj => absurd hj (Nat.not_lt_zero j)⟩
    · rename_i hp
      obtain ⟨k, hk, rfl⟩ := Option.map_eq_some_iff.mp h
      obtain ⟨h1, h2⟩ := ih hk
      refine ⟨h1, fun j hj => ?_⟩
      cases j with
      | zero => exact hp
      | succ j => exact h2 j (by omega)

theorem strstr_eq_none : strstr needle s = none ↔ ∀ j, ¬ needle <+: s.drop j := by
  induction s with
  | nil =>
    unfold strstr
    by_cases h : needle = []
    · simp [h]
    · simp [h, List.prefix_nil]
  | cons a s ih =>
    unfold strstr
    split
    · rename_i hp
      simp only [reduceCtorEq, false_iff, not_forall, not_not]
      exact ⟨0, hp⟩
    · rename_i hp
      rw [Option.map_eq_none_iff, ih]
      refine ⟨fun h j => ?_, fun h j => h (j + 1)⟩
      cases j with
      | zero => exact hp
      | succ j => exact h j

theorem strstr_of_first (h : needle <+: s.drop i) (hfirst : ∀ j < i, ¬ needle <+: s.drop j) :
    strstr needle s = some i := by
  cases hs : strstr needle s with
  | none => exact absurd h (strstr_eq_none.mp hs i)
  | some k =>
    obtain ⟨h1, h2⟩ := strstr_eq_some hs
    rcases lt_trichotomy i k with hlt | rfl | hlt
    · exact absurd h (h2 i hlt)
    · rfl
    · exact absurd h1 (hfirst k hlt)

theorem strstr_bound (h : strstr needle s = some i) : i + needle.length ≤ s.length ∨ needle = [] := by
  obtain ⟨hp, -⟩ := strstr_eq_some h
  have := hp.length_le
  rw [List.length_drop] at this
  rcases needle with _ | ⟨a, needle⟩
  · exact Or.inr rfl
  · left
    simp only [List.length_cons] at *
    omega

theorem strstr_isSome : (strstr needle s).isSome ↔ needle <:+: s := by
  constructor
  · intro h
    obtain ⟨i, hi⟩ := Option.isSome_iff_exists.mp h
    exact (strstr_eq_some hi).1.isInfix.trans (List.drop_suffix i s).isInfix
  · rintro ⟨s₁, s₂, rfl⟩
    by_contra h
    have hnone := strstr_eq_none.mp (Option.not_isSome_iff_eq_none.mp h) s₁.length
    rw [List.append_assoc, List.drop_left] at hnone
    exact hnone (List.prefix_append _ _)

/-- An occurrence found in a string is found there in every extension of it. -/
theorem strstr_append (hne : needle ≠ []) (h : strstr needle s = some i) (r : List α) :
    strstr needle (s ++ r) = some i := by
  obtain ⟨hp, hfirst⟩ := strstr_eq_some h
  have hb := (strstr_bound h).resolve_right hne
  refine strstr_of_first ?_ fun j hj hpj => hfirst j hj ?_
  · rw [List.drop_append_of_le_length (by omega)]
    exact hp.trans (List.prefix_append _ _)
  · rw [List.drop_append_of_le_length (by omega)] at hpj
    refine List.prefix_of_prefix_length_le hpj (List.prefix_append _ _) ?_
    rw [List.length_drop]
    omega

theorem strstr_cons_of_ne {a b : α} (h : a ≠ b) (needle s : List α) :
    strstr (a :: needle) (b :: s) = (strstr (a :: needle) s).map (· + 1) := by
  rw [strstr, if_neg]
  intro hp
  exact h (List.cons_prefix_cons.mp hp).1

theorem strstr_append_of_not_mem {a : α} {s : List α} (h : a ∉ s) (needle t : List α) :
    strstr (a :: needle) (s ++ t) = (strstr (a :: needle) t).map (s.length + ·) := by
  induction s with
  | nil => simp
  | cons b s ih =>
    obtain ⟨hb, hs⟩ := List.ne_and_not_mem_of_not_mem_cons h
    rw [List.cons_append, strstr_cons_of_ne hb, ih hs, Option.map_map]
    congr 1
    funext i
    simp only [Function.comp_apply, List.length_cons]
    omega

theorem strstr_skip (needle s : List α) {n : ℕ} (h : ∀ j < n, ¬ needle <+: s.drop j) :
    strstr needle s = (strstr needle (s.drop n)).map (n + ·) := by
  cases hs : strstr needle (s.drop n) with
  | none =>
    rw [Option.map_none, strstr_eq_none]
    intro j
    rcases Nat.lt_or_ge j n with hj | hj
    · exact h j hj
    · have := strstr_eq_none.mp hs (j - n)
      rwa [List.drop_drop, Nat.add_sub_cancel' hj] at this
  | some k =>
    obtain ⟨hp, hfirst⟩ := strstr_eq_some hs
    rw [List.drop_drop] at hp
    refine strstr_of_first hp fun j hj => ?_
    have hj : j < n + k := hj
    rcases Nat.lt_or_ge j n with hjn | hjn
    · exact h j hjn
    · have := hfirst (j - n) (by omega)
      rwa [List.drop_drop, Nat.add_sub_cancel' hjn] at this

theorem strstr_self_append (a : α) (needle t : List α) :
    strstr (a :: needle) (a :: needle ++ t) = some 0 := by
  rw [List.cons_append, strstr, if_pos]
  exact List.cons_prefix_cons.mpr ⟨rfl, List.prefix_append _ _⟩

/-- A string whose first occurrence ends at its end has none in a proper prefix. -/
theorem strstr_prefix_eq_none {t : List α} (hne : needle ≠ []) (h : strstr needle s = some i)
    (hend : i + needle.length = s.length) (ht : t <+: s) (hlt : t ≠ s) :
    strstr needle t = none := by
  cases hs : strstr needle t with
  | none => rfl
  | some k =>
    obtain ⟨r, rfl⟩ := ht
    have hk := strstr_append hne hs r
    obtain rfl := Option.some.inj (h.symm.trans hk)
    have hb := (strstr_bound hs).resolve_right hne
    rw [List.length_append] at hend
    have hr : r = [] := List.eq_nil_of_length_eq_zero (by omega)
    exact absurd (by simp [hr]) hlt

end Search

/-! ### Tokens -/

section Tokens

variable {α : Type*} {delim : α → Bool} {s t : List α} {a d : α}

/-- What the calls of `strtok` on a string point to: the suffixes that its tokens start. -/
def strtok (delim : α → Bool) (s : List α) : List (List α) :=
  match _h : s.dropWhile delim with
  | [] => []
  | a :: rest => (a :: rest) :: strtok delim (((a :: rest).dropWhile (!delim ·)).drop 1)
termination_by s.length
decreasing_by
  have h1 : (s.dropWhile delim).length ≤ s.length := (List.dropWhile_suffix _).length_le
  have h2 : ((a :: rest).dropWhile (!delim ·)).length ≤ (a :: rest).length :=
    (List.dropWhile_suffix _).length_le
  rw [_h] at h1
  simp only [List.length_drop, List.length_cons] at *
  omega

theorem strtok_of_nil (h : s.dropWhile delim = []) : strtok delim s = [] := by
  rw [strtok]
  split
  · rfl
  · rename_i h'
    rw [h] at h'
    cases h'

theorem strtok_of_cons {rest : List α} (h : s.dropWhile delim = a :: rest) :
    strtok delim s =
      (a :: rest) :: strtok delim (((a :: rest).dropWhile (!delim ·)).drop 1) := by
  rw [strtok]
  split
  · rename_i h'
    rw [h] at h'
    cases h'
  · rename_i h'
    obtain ⟨rfl, rfl⟩ := List.cons.inj (h.symm.trans h')
    rfl

theorem strtok_delim (hd : delim d) (s : List α) : strtok delim (d :: s) = strtok delim s := by
  have hdrop : (d :: s).dropWhile delim = s.dropWhile delim := List.dropWhile_cons_of_pos hd
  cases hs : s.dropWhile delim with
  | nil => rw [strtok_of_nil hs, strtok_of_nil (hdrop.trans hs)]
  | cons a rest => rw [strtok_of_cons hs, strtok_of_cons (hdrop.trans hs)]

theorem strtok_token (hne : s ≠ []) (h : ∀ c ∈ s, ¬ delim c) : strtok delim s = [s] := by
  obtain ⟨a, rest, rfl⟩ := List.exists_cons_of_ne_nil hne
  have hstart : (a :: rest).dropWhile delim = a :: rest :=
    List.dropWhile_cons_of_neg (h a (List.mem_cons_self ..))
  have hend : (a :: rest).dropWhile (!delim ·) = [] :=
    List.dropWhile_eq_nil_iff.mpr fun c hc => by simpa using h c hc
  rw [strtok_of_cons hstart, hend, List.drop_nil, strtok_of_nil rfl]

/-- **Tokens do not go past a delimiter.** -/
theorem strtok_append_delim (hd : delim d) (s t : List α) :
    strtok delim (s ++ d :: t) = (strtok delim s).map (· ++ d :: t) ++ strtok delim t := by
  induction s using strtok.induct delim with
  | case1 s h =>
    have hall : ∀ c ∈ s, delim c := List.dropWhile_eq_nil_iff.mp h
    have hdrop : (s ++ d :: t).dropWhile delim = t.dropWhile delim := by
      rw [List.dropWhile_append_of_pos hall, List.dropWhile_cons_of_pos hd]
    rw [strtok_of_nil h, List.map_nil, List.nil_append]
    cases ht : t.dropWhile delim with
    | nil => rw [strtok_of_nil ht, strtok_of_nil (hdrop.trans ht)]
    | cons a rest => rw [strtok_of_cons ht, strtok_of_cons (hdrop.trans ht)]
  | case2 s a rest h ih =>
    have hstart : (s ++ d :: t).dropWhile delim = a :: (rest ++ d :: t) := by
      rw [List.dropWhile_append, h]
      rfl
    rw [strtok_of_cons h, strtok_of_cons hstart, List.map_cons, List.cons_append, List.cons_append]
    refine congrArg (List.cons _) ?_
    rw [← List.cons_append, List.dropWhile_append]
    cases hcut : (a :: rest).dropWhile (!delim ·) with
    | nil =>
      -- the token is the last one of `s`
      have hself : (d :: t).dropWhile (!delim ·) = d :: t :=
        List.dropWhile_cons_of_neg (by simp [hd])
      have hnone : strtok delim (([] : List α).drop 1) = [] := strtok_of_nil rfl
      rw [List.isEmpty_nil, if_pos rfl, hself, hnone]
      rfl
    | cons b cut =>
      rw [hcut] at ih
      rw [List.isEmpty_cons, if_neg Bool.false_ne_true]
      exact ih

theorem strtok_eq_nil : strtok delim s = [] ↔ ∀ c ∈ s, delim c := by
  rw [← List.dropWhile_eq_nil_iff]
  cases h : s.dropWhile delim with
  | nil => exact iff_of_true (strtok_of_nil h) rfl
  | cons a rest => rw [strtok_of_cons h]; exact iff_of_false (List.cons_ne_nil _ _) (List.cons_ne_nil _ _)

/-- A token starts a suffix, and not with a delimiter. -/
theorem mem_strtok (h : t ∈ strtok delim s) : t <:+ s ∧ ∃ a rest, t = a :: rest ∧ ¬ delim a := by
  induction s using strtok.induct delim with
  | case1 s hs =>
    rw [strtok_of_nil hs] at h
    cases h
  | case2 s a rest hs ih =>
    have hsuffix : a :: rest <:+ s := hs ▸ List.dropWhile_suffix _
    rw [strtok_of_cons hs] at h
    rcases List.mem_cons.mp h with rfl | h
    · have hhead := List.head?_dropWhile_not delim s
      rw [hs] at hhead
      exact ⟨hsuffix, a, rest, rfl, by simpa using hhead⟩
    · obtain ⟨ht, hhead⟩ := ih h
      exact ⟨ht.trans ((List.drop_suffix _ _).trans ((List.dropWhile_suffix _).trans hsuffix)), hhead⟩

end Tokens

/-- `strrchr` as a position. -/
def strrchr (s : List UInt8) (c : UInt8) : Option ℕ :=
  (s.reverse.findIdx? (· == c)).map (s.length - 1 - ·)

/-- `strcspn`. -/
def strcspn (s reject : List UInt8) : ℕ := (s.takeWhile (· ∉ reject)).length

/-! ### Characters and conversions -/

/-- `isspace` in the C locale. -/
def isspace (c : UInt8) : Bool := c = 32 ∨ (9 ≤ c ∧ c ≤ 13)

/-- `tolower` in the C locale. -/
def tolower (c : UInt8) : UInt8 := if 65 ≤ c ∧ c ≤ 90 then c + 32 else c

/-- The tokens that `n` conversions `%s` store. -/
def scanWords : ℕ → List UInt8 → List (List UInt8)
  | 0, _ => []
  | n + 1, s =>
    match s.dropWhile isspace with
    | [] => []
    | a :: s' =>
      (a :: s').takeWhile (!isspace ·) :: scanWords n ((a :: s').dropWhile (!isspace ·))

theorem mem_scanWords {n : ℕ} {word s : List UInt8} (h : word ∈ scanWords n s) :
    word <:+: s ∧ ∀ c ∈ word, ¬ isspace c = true := by
  induction n generalizing s with
  | zero => cases h
  | succ n ih =>
    unfold scanWords at h
    split at h
    · cases h
    · rename_i a s' hs
      have hsuffix : a :: s' <:+ s := hs ▸ List.dropWhile_suffix _
      rcases List.mem_cons.mp h with rfl | h
      · refine ⟨(List.takeWhile_prefix _).isInfix.trans hsuffix.isInfix, fun c hc => ?_⟩
        simpa using List.mem_takeWhile_imp hc
      · obtain ⟨hpart, hspace⟩ := ih h
        exact ⟨hpart.trans ((List.dropWhile_suffix _).trans hsuffix).isInfix, hspace⟩

theorem scanWords_space {c : UInt8} (hc : isspace c) (n : ℕ) (s : List UInt8) :
    scanWords n (c :: s) = scanWords n s := by
  cases n with
  | zero => rfl
  | succ n => rw [scanWords, scanWords, List.dropWhile_cons_of_pos hc]

theorem scanWords_word {word s : List UInt8} (hne : word ≠ []) (hword : ∀ c ∈ word, ¬ isspace c)
    (hs : ∀ c ∈ s.head?, isspace c) (n : ℕ) :
    scanWords (n + 1) (word ++ s) = word :: scanWords n s := by
  obtain ⟨c, word, rfl⟩ := List.exists_cons_of_ne_nil hne
  have hall : ∀ b ∈ c :: word, (!isspace b) = true := fun b hb => by simpa using hword b hb
  have hstop : s.takeWhile (!isspace ·) = [] ∧ s.dropWhile (!isspace ·) = s := by
    cases s with
    | nil => exact ⟨rfl, rfl⟩
    | cons b s =>
      have hb : isspace b = true := hs b rfl
      simp [hb]
  have hskip : (c :: word ++ s).dropWhile isspace = c :: (word ++ s) :=
    List.dropWhile_cons_of_neg (hword c (List.mem_cons_self ..))
  rw [scanWords, hskip]
  simp only [← List.cons_append, List.takeWhile_append_of_pos hall,
    List.dropWhile_append_of_pos hall, hstop.1, hstop.2, List.append_nil]

end CString

import UbServer.Lib.CString
import UbServer.Lib.Runs
import Mathlib.Logic.Function.Basic

/-!
# A tokenizer with one position for all

`strtok` keeps its position in one variable. Several users go through texts of their own with it, and
their calls come in any order. A call with `NULL` goes on where the last call of any user has stopped:
it is undefined where that is not in the text of its own user.

* `Reading`: what a user has got of its text.
* `Tokenizer.next`: one turn of a user.
* `Tokenizer.Sound`: what a user has got and what is left are the tokens of its text, as long as the
  position is there.
* `Tokenizer.Sound.next`, `Tokenizer.Sound.ended`: a user whose calls have all been defined gets the
  tokens of its text, whatever the others do in between.
* `Tokenizer.exec_turns`: a user that no other user comes between gets to the end of its text.
-/

namespace SharedTokens

open CString Runs

/-- What a user has got of its text: the suffixes that the tokens start, and whether `NULL` has been
returned. -/
structure Reading (α : Type*) where
  text : List α
  tokens : List (List α)
  ended : Bool

/-- The position, as a user and the rest of its text, and what the users in their loops have got. -/
structure Tokenizer (ι α : Type*) where
  position : Option (ι × List α)
  readings : ι → Option (Reading α)

def Tokenizer.init {ι α : Type*} : Tokenizer ι α := ⟨none, fun _ => none⟩

/-- A call with a text, a call with `NULL`, and the end of the loop, after which the user has done with
its text. -/
inductive Turn (α : Type*) where
  | start (text : List α)
  | null
  | finish

section Turns

variable {ι α : Type*} [DecidableEq ι] (delim : α → Bool) (s : Tokenizer ι α) (i : ι)

/-- The user further on, with the position. -/
def Tokenizer.set (position : Option (ι × List α)) (reading : Option (Reading α)) : Tokenizer ι α :=
  ⟨position, Function.update s.readings i reading⟩

/-- The user gets the next token of the rest, or `NULL`. -/
def Tokenizer.token (r : Reading α) (rest : List α) : Tokenizer ι α :=
  match rest.dropWhile delim with
  | [] => s.set i (some (i, [])) (some ⟨r.text, r.tokens, true⟩)
  | a :: rest =>
    s.set i (some (i, ((a :: rest).dropWhile (!delim ·)).drop 1))
      (some ⟨r.text, r.tokens ++ [a :: rest], false⟩)

/-- One turn. -/
def Tokenizer.next : Turn α → Option (Tokenizer ι α)
  | .start text =>
    match s.readings i with
    | none => some (s.token delim i ⟨text, [], false⟩ text)
    | some _ => none
  | .null =>
    match s.readings i, s.position with
    | some r, some (j, rest) =>
      -- undefined in the text of another user
      if j = i ∧ ¬ r.ended then some (s.token delim i r rest) else none
    | _, _ => none
  | .finish =>
    match s.readings i with
    | some r => if r.ended then some (s.set i s.position none) else none
    | none => none

/-- The turns of a user that goes through a text. -/
def turns (text : List α) : List (Turn α) :=
  .start text :: (List.replicate (strtok delim text).length .null ++ [.finish])

end Turns

/-- **Each user gets its own tokens**: those that it has got, with those of the rest as long as the
position is in its text, are the tokens of the text. -/
structure Tokenizer.Sound {ι α : Type*} (delim : α → Bool) (s : Tokenizer ι α) : Prop where
  ended : ∀ i, ∀ r ∈ s.readings i, r.ended → r.tokens = strtok delim r.text
  reading : ∀ i, ∀ r ∈ s.readings i, ¬ r.ended → ∀ rest, s.position = some (i, rest) →
    r.tokens ++ strtok delim rest = strtok delim r.text

theorem sound_init {ι α : Type*} (delim : α → Bool) : (Tokenizer.init : Tokenizer ι α).Sound delim where
  ended := fun _ _ h => by cases h
  reading := fun _ _ h => by cases h

section Rules

variable {ι α : Type*} [DecidableEq ι] {delim : α → Bool} {s s' : Tokenizer ι α} {i j : ι}
  {r : Reading α} {rest : List α} {turn : Turn α}

theorem Tokenizer.mem_readings_set {position : Option (ι × List α)} {reading : Option (Reading α)} :
    r ∈ (s.set i position reading).readings j ↔
      j = i ∧ r ∈ reading ∨ j ≠ i ∧ r ∈ s.readings j := by
  unfold Tokenizer.set
  by_cases hj : j = i
  · subst hj
    simp
  · simp [hj]

theorem Tokenizer.Sound.set {position : Option (ι × List α)} {reading : Option (Reading α)}
    (hs : s.Sound delim) (hended : ∀ r ∈ reading, r.ended → r.tokens = strtok delim r.text)
    (hreading : ∀ r ∈ reading, ¬ r.ended → ∀ rest, position = some (i, rest) →
      r.tokens ++ strtok delim rest = strtok delim r.text)
    (hothers : ∀ j rest, j ≠ i → position = some (j, rest) → s.position = some (j, rest)) :
    (s.set i position reading).Sound delim where
  ended := by
    intro j r hr h
    rcases mem_readings_set.mp hr with ⟨-, hself⟩ | ⟨-, hother⟩
    · exact hended r hself h
    · exact hs.ended j r hother h
  reading := by
    intro j r hr h rest hposition
    rcases mem_readings_set.mp hr with ⟨rfl, hself⟩ | ⟨hj, hother⟩
    · exact hreading r hself h rest hposition
    · exact hs.reading j r hother h rest (hothers j rest hj hposition)

theorem Tokenizer.Sound.token (hs : s.Sound delim)
    (hrest : r.tokens ++ strtok delim rest = strtok delim r.text) :
    (s.token delim i r rest).Sound delim := by
  -- the position of the call is not in the text of another user
  have hothers : ∀ {rest' : List α} j rest'', j ≠ i → some (i, rest') = some (j, rest'') →
      s.position = some (j, rest'') := by
    intro rest' j rest'' hj hposition
    exact absurd (Prod.mk.inj (Option.some.inj hposition)).1.symm hj
  unfold Tokenizer.token
  split
  · rename_i hdrop
    rw [strtok_of_nil hdrop, List.append_nil] at hrest
    refine hs.set (fun r' hr' _ => ?_) (fun r' hr' hnot => ?_) hothers
    · obtain rfl := Option.some.inj hr'
      exact hrest
    · obtain rfl := Option.some.inj hr'
      exact absurd rfl hnot
  · rename_i a rest' hdrop
    rw [strtok_of_cons hdrop, List.append_cons] at hrest
    refine hs.set (fun r' hr' hended => ?_) (fun r' hr' _ rest'' hposition => ?_) hothers
    · obtain rfl := Option.some.inj hr'
      cases hended
    · obtain rfl := Option.some.inj hr'
      obtain ⟨-, rfl⟩ := Prod.mk.inj (Option.some.inj hposition)
      exact hrest

/-- **One turn.** -/
theorem Tokenizer.Sound.next (hs : s.Sound delim) (h : s.next delim i turn = some s') :
    s'.Sound delim := by
  unfold Tokenizer.next at h
  cases turn with
  | start text =>
    simp only at h
    split at h
    · obtain rfl := Option.some.inj h
      exact hs.token rfl
    · cases h
  | null =>
    simp only at h
    split at h
    · rename_i r j rest hr hposition
      split at h
      · rename_i hown
        obtain rfl := Option.some.inj h
        exact hs.token (hs.reading i r hr hown.2 rest (hown.1 ▸ hposition))
      · cases h
    · cases h
  | finish =>
    simp only at h
    split at h
    · split at h
      · obtain rfl := Option.some.inj h
        exact hs.set (fun r hr => by cases hr) (fun r hr => by cases hr) fun _ _ _ h => h
      · cases h
    · cases h

/-! ### A user without others -/

@[simp] theorem Tokenizer.readings_set (position : Option (ι × List α)) (reading : Option (Reading α)) :
    (s.set i position reading).readings = Function.update s.readings i reading := rfl

@[simp] theorem Tokenizer.set_set (position position' : Option (ι × List α))
    (reading reading' : Option (Reading α)) :
    (s.set i position reading).set i position' reading' = s.set i position' reading' := by
  simp [Tokenizer.set]

/-- With a call with `NULL` for each token of the rest, the user has got them all. -/
theorem Tokenizer.exec_nulls (delim : α → Bool) (s : Tokenizer ι α) (i : ι) (r : Reading α)
    (rest : List α) :
    ∃ position, exec (fun s turn => s.next delim i turn) (s.token delim i r rest)
        (List.replicate (strtok delim rest).length .null) =
      some (s.set i position (some ⟨r.text, r.tokens ++ strtok delim rest, true⟩)) := by
  induction rest using strtok.induct delim generalizing s r with
  | case1 rest hrest =>
    refine ⟨some (i, []), ?_⟩
    rw [strtok_of_nil hrest, List.append_nil]
    unfold Tokenizer.token
    rw [hrest]
    rfl
  | case2 rest a rest' hrest ih =>
    obtain ⟨position, hexec⟩ := ih (s.token delim i r rest) ⟨r.text, r.tokens ++ [a :: rest'], false⟩
    have htoken : s.token delim i r rest =
        s.set i (some (i, ((a :: rest').dropWhile (!delim ·)).drop 1))
          (some ⟨r.text, r.tokens ++ [a :: rest'], false⟩) := by
      unfold Tokenizer.token
      rw [hrest]
    have hnull : (s.token delim i r rest).next delim i .null =
        some ((s.token delim i r rest).token delim i ⟨r.text, r.tokens ++ [a :: rest'], false⟩
          (((a :: rest').dropWhile (!delim ·)).drop 1)) := by
      rw [htoken]
      unfold Tokenizer.next
      simp [Tokenizer.set]
    refine ⟨position, ?_⟩
    rw [strtok_of_cons hrest, List.length_cons, List.replicate_succ]
    unfold exec
    rw [hnull, Option.bind_some, hexec, htoken, Tokenizer.set_set, List.append_assoc,
      List.singleton_append]

theorem Tokenizer.next_finish {position : Option (ι × List α)} (hr : r.ended) :
    (s.set i position (some r)).next delim i .finish = some (s.set i position none) := by
  unfold Tokenizer.next
  simp [hr, Tokenizer.set]

theorem Tokenizer.exec_turns (hs : s.readings i = none) (text : List α) :
    ∃ s', exec (fun s turn => s.next delim i turn) s (turns delim text) = some s' ∧
      s'.readings = s.readings := by
  obtain ⟨position, hnulls⟩ := s.exec_nulls delim i ⟨text, [], false⟩ text
  refine ⟨s.set i position none, ?_, ?_⟩
  · have hstart : s.next delim i (.start text) = some (s.token delim i ⟨text, [], false⟩ text) := by
      unfold Tokenizer.next
      rw [hs]
    unfold turns exec
    rw [hstart, Option.bind_some, exec_append, hnulls, Option.bind_some, exec,
      Tokenizer.next_finish rfl, Option.bind_some, exec]
  · rw [Tokenizer.readings_set, ← hs, Function.update_eq_self]

end Rules

end SharedTokens

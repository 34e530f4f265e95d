import Mathlib.Data.List.Basic
import Mathlib.Data.Set.Function
import Mathlib.Tactic.Common

/-!
# Decimal numerals inside longer texts

The characters that `toString` gives for a number, read back out of a text that goes on behind them.
Texts are lists over any alphabet `α` into which the characters of numerals are encoded.

* `append_sep_inj`, `append_last_sep_inj`: a text is cut at its first or last separator in one way.
* `numeral n`: the characters of the decimal of an integer.
* `numeral_sep_inj`: an integer, a dash and any rest determine the integer and the rest.
-/

namespace Decimal

/-- The characters that a decimal is made of. -/
def numeralChars : Set Char := { c | c.isDigit ∨ c = '-' }

/-- The decimal of an integer. -/
def numeral (n : ℤ) : List Char := (toString n).toList

section Naturals

variable {m n : ℕ} {c : Char}

theorem isDigit_of_mem (h : c ∈ (toString n).toList) : c.isDigit := by
  rw [Nat.toString_eq_repr, Nat.toList_repr] at h
  exact Nat.isDigit_of_mem_toDigits (by decide) (by decide) h

theorem toList_ne_nil (n : ℕ) : (toString n).toList ≠ [] := by
  rw [Nat.toString_eq_repr]
  intro h
  exact Nat.repr_ne_empty (String.toList_inj.mp h)

theorem toList_inj (h : (toString m).toList = (toString n).toList) : m = n := by
  rw [Nat.toString_eq_repr, Nat.toList_repr, Nat.toString_eq_repr, Nat.toList_repr] at h
  calc m = Nat.ofDigitChars 10 (Nat.toDigits 10 m) 0 := Nat.ofDigitChars_ten_toDigits.symm
    _ = Nat.ofDigitChars 10 (Nat.toDigits 10 n) 0 := by rw [h]
    _ = n := Nat.ofDigitChars_ten_toDigits

end Naturals

theorem numeral_of_nonneg (n : ℕ) : numeral n = (toString n).toList := by
  unfold numeral
  rw [Int.toString_eq_repr, Int.repr_eq_if, if_pos (Int.natCast_nonneg n), Int.toNat_natCast,
    Nat.toString_eq_repr]

theorem numeral_of_neg (n : ℕ) : numeral (-(n + 1 : ℕ)) = '-' :: (toString (n + 1)).toList := by
  unfold numeral
  rw [Int.toString_eq_repr, Int.repr_eq_if, if_neg (by omega), Int.neg_neg, Int.toNat_natCast,
    Nat.toString_eq_repr, String.toList_append]
  rfl

theorem exists_nat (n : ℤ) : (∃ k : ℕ, n = k) ∨ ∃ k : ℕ, n = -(k + 1 : ℕ) := by
  rcases lt_or_ge n 0 with h | h
  · exact Or.inr ⟨(-n - 1).toNat, by omega⟩
  · exact Or.inl ⟨n.toNat, by omega⟩

theorem mem_numeralChars {n : ℤ} {c : Char} (h : c ∈ numeral n) : c ∈ numeralChars := by
  rcases exists_nat n with ⟨k, rfl⟩ | ⟨k, rfl⟩
  · rw [numeral_of_nonneg] at h
    exact Or.inl (isDigit_of_mem h)
  · rw [numeral_of_neg] at h
    rcases List.mem_cons.mp h with rfl | h
    · exact Or.inr rfl
    · exact Or.inl (isDigit_of_mem h)

theorem toNat_of_mem {c : Char} (h : c ∈ numeralChars) :
    c.toNat = 45 ∨ 48 ≤ c.toNat ∧ c.toNat ≤ 57 := by
  rcases h with h | rfl
  · rw [Char.isDigit, Bool.and_eq_true, decide_eq_true_eq, decide_eq_true_eq] at h
    exact Or.inr h
  · exact Or.inl rfl

/-! ### Texts cut at a separator -/

section Separator

variable {α : Type*} {a : α} {x y s t : List α}

/-- A text is cut at the first separator in one way. -/
theorem append_sep_inj (hx : a ∉ x) (hy : a ∉ y)
    (h : x ++ a :: s = y ++ a :: t) : x = y ∧ s = t := by
  induction x generalizing y with
  | nil =>
    cases y with
    | nil => exact ⟨rfl, (List.cons.inj h).2⟩
    | cons b y => exact absurd (List.mem_cons.mpr (Or.inl (List.cons.inj h).1)) hy
  | cons b x ih =>
    cases y with
    | nil => exact absurd (List.mem_cons.mpr (Or.inl (List.cons.inj h).1.symm)) hx
    | cons d y =>
      obtain ⟨rfl, htail⟩ := List.cons.inj h
      obtain ⟨rfl, hst⟩ := ih (fun hmem => hx (List.mem_cons_of_mem _ hmem))
        (fun hmem => hy (List.mem_cons_of_mem _ hmem)) htail
      exact ⟨rfl, hst⟩

/-- A text is cut at the last separator in one way. -/
theorem append_last_sep_inj (hs : a ∉ s) (ht : a ∉ t) (h : x ++ a :: s = y ++ a :: t) :
    x = y ∧ s = t := by
  have hrev := congrArg List.reverse h
  rw [List.reverse_append, List.reverse_cons, List.reverse_append, List.reverse_cons,
    List.append_assoc, List.append_assoc, List.singleton_append, List.singleton_append] at hrev
  obtain ⟨hst, hxy⟩ := append_sep_inj (fun hmem => hs (List.mem_reverse.mp hmem))
    (fun hmem => ht (List.mem_reverse.mp hmem)) hrev
  exact ⟨List.reverse_injective hxy, List.reverse_injective hst⟩

end Separator

/-! ### A numeral at the start of a text -/

section Encoded

variable {α : Type*} {encode : Char → α} {decode : α → Char} {m n : ℤ} {j k : ℕ} {s t : List α}

/-- The decimal of a natural number, encoded. -/
def digits (encode : Char → α) (k : ℕ) : List α := (toString k).toList.map encode

theorem map_digits (hdec : Set.LeftInvOn decode encode numeralChars) (k : ℕ) :
    (digits encode k).map decode = (toString k).toList := by
  unfold digits
  rw [List.map_map]
  calc (toString k).toList.map (decode ∘ encode) = (toString k).toList.map id :=
        List.map_congr_left fun c hc => hdec (Or.inl (isDigit_of_mem hc))
    _ = (toString k).toList := List.map_id _

theorem dash_notMem (hdec : Set.LeftInvOn decode encode numeralChars) (k : ℕ) :
    encode '-' ∉ digits encode k := by
  intro h
  have hdash := List.mem_map_of_mem (f := decode) h
  rw [map_digits hdec, hdec (Or.inr rfl)] at hdash
  exact absurd (isDigit_of_mem hdash) (by decide)

theorem digits_ne_nil (encode : Char → α) (k : ℕ) : digits encode k ≠ [] :=
  fun h => toList_ne_nil k (List.map_eq_nil_iff.mp h)

theorem digits_sep_inj (hdec : Set.LeftInvOn decode encode numeralChars)
    (h : digits encode j ++ encode '-' :: s = digits encode k ++ encode '-' :: t) :
    j = k ∧ s = t := by
  obtain ⟨hdigits, hrest⟩ := append_sep_inj (dash_notMem hdec j) (dash_notMem hdec k) h
  have hlist := congrArg (List.map decode) hdigits
  rw [map_digits hdec, map_digits hdec] at hlist
  exact ⟨toList_inj hlist, hrest⟩

theorem digits_ne_dash (hdec : Set.LeftInvOn decode encode numeralChars) :
    digits encode j ++ s ≠ encode '-' :: t := by
  intro h
  obtain ⟨a, rest, e⟩ := List.exists_cons_of_ne_nil (digits_ne_nil encode j)
  rw [e, List.cons_append] at h
  refine dash_notMem hdec j ?_
  rw [e, ← (List.cons.inj h).1]
  exact List.mem_cons_self

/-- **Numerals are read back.** A leading dash is a sign, the one behind the digits ends them. -/
theorem numeral_sep_inj (hdec : Set.LeftInvOn decode encode numeralChars)
    (h : (numeral m).map encode ++ encode '-' :: s = (numeral n).map encode ++ encode '-' :: t) :
    m = n ∧ s = t := by
  rcases exists_nat m with ⟨j, rfl⟩ | ⟨j, rfl⟩ <;> rcases exists_nat n with ⟨k, rfl⟩ | ⟨k, rfl⟩
  · rw [numeral_of_nonneg, numeral_of_nonneg] at h
    obtain ⟨rfl, hst⟩ := digits_sep_inj hdec h
    exact ⟨rfl, hst⟩
  · rw [numeral_of_nonneg, numeral_of_neg, List.map_cons, List.cons_append] at h
    exact absurd h (digits_ne_dash hdec)
  · rw [numeral_of_nonneg, numeral_of_neg, List.map_cons, List.cons_append] at h
    exact absurd h.symm (digits_ne_dash hdec)
  · rw [numeral_of_neg, numeral_of_neg, List.map_cons, List.map_cons] at h
    obtain ⟨hjk, hst⟩ := digits_sep_inj hdec (List.cons.inj h).2
    obtain rfl := Nat.succ.inj hjk
    exact ⟨rfl, hst⟩

end Encoded

end Decimal

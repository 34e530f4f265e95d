import Mathlib.Data.List.Basic
import Mathlib.Tactic.Common

/-!
# A file with several writers

Each writer writes the same target at its own offset.

* `pwrite`: the content after a write at an offset. Past the end, a hole is left.
* `Covers`: the content is the target up to a position, and no longer than it.
* `Covers.pwrite_part`, `Covers.pwrite_next`: what a write of a part of the target keeps, and what it
  adds.
-/

namespace SharedFile

variable {α : Type*}

/-- The content of a file after `data` is written at an offset. -/
def pwrite (hole : α) (content : List α) (offset : ℕ) (data : List α) : List α :=
  if data = [] then content
  else
    (content ++ List.replicate (offset - content.length) hole).take offset ++ data ++
      content.drop (offset + data.length)

/-- The content is the target up to a position, and no longer than the target. -/
structure Covers (target : List α) (upTo : ℕ) (content : List α) : Prop where
  length_le : content.length ≤ target.length
  le_length : upTo ≤ content.length
  agree : ∀ i < upTo, content[i]? = target[i]?

section Writes

variable {hole : α} {target content data : List α} {upTo offset count : ℕ}

@[simp] theorem pwrite_nil (hole : α) (content : List α) (offset : ℕ) :
    pwrite hole content offset [] = content := if_pos rfl

theorem length_pwrite (h : data ≠ []) :
    (pwrite hole content offset data).length = max content.length (offset + data.length) := by
  unfold pwrite
  rw [if_neg h]
  simp only [List.length_append, List.length_take, List.length_replicate, List.length_drop]
  omega

theorem getElem?_pwrite_of_mem {i : ℕ} (h : data ≠ []) (hlow : offset ≤ i)
    (hhigh : i < offset + data.length) :
    (pwrite hole content offset data)[i]? = data[i - offset]? := by
  have htake : ((content ++ List.replicate (offset - content.length) hole).take offset).length =
      offset := by
    simp only [List.length_take, List.length_append, List.length_replicate]
    omega
  unfold pwrite
  rw [if_neg h, List.append_assoc, List.getElem?_append_right (by omega), htake,
    List.getElem?_append_left (by omega)]

theorem getElem?_pwrite_of_not_mem {i : ℕ} (hlt : i < content.length)
    (hout : i < offset ∨ offset + data.length ≤ i) :
    (pwrite hole content offset data)[i]? = content[i]? := by
  by_cases h : data = []
  · rw [h, pwrite_nil]
  · have htake : ((content ++ List.replicate (offset - content.length) hole).take offset).length =
        offset := by
      simp only [List.length_take, List.length_append, List.length_replicate]
      omega
    unfold pwrite
    rw [if_neg h]
    rcases hout with hbefore | hbehind
    · rw [List.append_assoc, List.getElem?_append_left (by omega), List.getElem?_take_of_lt hbefore,
        List.getElem?_append_left hlt]
    · rw [List.getElem?_append_right (by rw [List.length_append]; omega), List.length_append, htake,
        List.getElem?_drop]
      congr 1
      omega

theorem Covers.eq (h : Covers target target.length content) : content = target := by
  have hlength : content.length = target.length := Nat.le_antisymm h.length_le h.le_length
  refine List.ext_getElem? fun i => ?_
  by_cases hi : i < target.length
  · exact h.agree i hi
  · rw [List.getElem?_eq_none (by omega), List.getElem?_eq_none (by omega)]

theorem covers_self (target : List α) : Covers target target.length target :=
  ⟨Nat.le_refl _, Nat.le_refl _, fun _ _ => rfl⟩

theorem covers_nil (target : List α) : Covers target 0 [] :=
  ⟨Nat.zero_le _, Nat.le_refl 0, fun i hi => absurd hi (Nat.not_lt_zero i)⟩

theorem length_part_le (hoffset : offset ≤ target.length) :
    offset + ((target.drop offset).take count).length ≤ target.length := by
  rw [List.length_take, List.length_drop]
  omega

theorem getElem?_part {i : ℕ} (hlow : offset ≤ i)
    (hhigh : i < offset + ((target.drop offset).take count).length) :
    ((target.drop offset).take count)[i - offset]? = target[i]? := by
  rw [List.length_take] at hhigh
  rw [List.getElem?_take_of_lt (by omega), List.getElem?_drop]
  congr 1
  omega

/-- **A write of a part of the target** keeps what is covered. -/
theorem Covers.pwrite_part (h : Covers target upTo content) (hoffset : offset ≤ target.length) :
    Covers target upTo (pwrite hole content offset ((target.drop offset).take count)) := by
  by_cases hnil : (target.drop offset).take count = []
  · rw [hnil, pwrite_nil]
    exact h
  · have hpart : offset + ((target.drop offset).take count).length ≤ target.length :=
      length_part_le hoffset
    have hlength : (pwrite hole content offset ((target.drop offset).take count)).length =
        max content.length (offset + ((target.drop offset).take count).length) :=
      length_pwrite hnil
    refine ⟨?_, ?_, fun i hi => ?_⟩
    · have := h.length_le
      omega
    · have := h.le_length
      omega
    · have hlt : i < content.length := Nat.lt_of_lt_of_le hi h.le_length
      by_cases hin : offset ≤ i ∧ i < offset + ((target.drop offset).take count).length
      · rw [getElem?_pwrite_of_mem hnil hin.1 hin.2, getElem?_part hin.1 hin.2]
      · rw [getElem?_pwrite_of_not_mem hlt (by omega), h.agree i hi]

/-- **The next part of the target**, written where the covered part ends, is covered too. -/
theorem Covers.pwrite_next (h : Covers target offset content) :
    Covers target (offset + ((target.drop offset).take count).length)
      (pwrite hole content offset ((target.drop offset).take count)) := by
  have hoffset : offset ≤ target.length := Nat.le_trans h.le_length h.length_le
  have hkept : Covers target offset
      (pwrite hole content offset ((target.drop offset).take count)) := h.pwrite_part hoffset
  by_cases hnil : (target.drop offset).take count = []
  · rw [hnil, List.length_nil, Nat.add_zero, pwrite_nil]
    exact h
  · have hlength : (pwrite hole content offset ((target.drop offset).take count)).length =
        max content.length (offset + ((target.drop offset).take count).length) :=
      length_pwrite hnil
    refine ⟨hkept.length_le, by omega, fun i hi => ?_⟩
    by_cases hin : offset ≤ i
    · rw [getElem?_pwrite_of_mem hnil hin hi, getElem?_part hin hi]
    · exact hkept.agree i (by omega)

end Writes

end SharedFile

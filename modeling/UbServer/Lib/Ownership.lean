import UbServer.Lib.Handles
import Mathlib.Data.List.Nodup

/-!
# Owners of handles

A piece of code acquires handles for an owner and releases them. The owner holds a list of numbers; it
loses one when it forgets it without a release.

* `Accounts`: the numbers in use for an owner are those it holds and those it has lost, each once.
* `Managed`: what a piece of code does with the numbers of its owner.
* `Managed.accounts`: with fresh numbers, its calls are legal and the accounts stay right.
* `Managed.legal_prefix`: the same of the calls that it has made when it is in the middle of them.
* `share`: what a table that several users have in common holds for one of them.
* `Call.Allowed.of_share`, `Call.share_after`, `Call.Allowed.share_others`: a call that is allowed on the
  user's share, with a number that is fresh in the whole table, is allowed, and leaves the shares of the
  others.
-/

namespace Handles

variable {κ : Type*}

/-- The numbers in use for `k` are those that the owner holds and those that it has lost. -/
structure Accounts (t : Table κ) (k : κ) (held lost : List ℕ) : Prop where
  once : (held ++ lost).Nodup
  inUse : ∀ n, t n = some k ↔ n ∈ held ++ lost

/-- The calls take the owner from the numbers `held` to `held'`, and it loses `lost`. -/
inductive Managed (k : κ) : List ℕ → List (Call κ) → List ℕ → List ℕ → Prop
  | done (held : List ℕ) : Managed k held [] held []
  | acquired {held held' lost : List ℕ} {calls : List (Call κ)} (n : ℕ) :
      Managed k (n :: held) calls held' lost → Managed k held (.acquire n k :: calls) held' lost
  | released {held held' lost : List ℕ} {calls : List (Call κ)} (n : ℕ) :
      Managed k held calls held' lost → Managed k (n :: held) (.release n k :: calls) held' lost
  | lost {held held' lost : List ℕ} {calls : List (Call κ)} (n : ℕ) :
      Managed k held calls held' lost → Managed k (n :: held) calls held' (n :: lost)
  | reordered {held₀ held held' lost : List ℕ} {calls : List (Call κ)} : held₀.Perm held →
      Managed k held calls held' lost → Managed k held₀ calls held' lost

section Accounting

variable {t : Table κ} {k : κ} {held held' held'' lost lost' : List ℕ} {calls calls' : List (Call κ)}
  {n : ℕ}

theorem accounts_empty (h : ∀ n, t n ≠ some k) : Accounts t k [] [] where
  once := List.nodup_nil
  inUse := fun n => iff_of_false (h n) List.not_mem_nil

theorem Accounts.perm (h : Accounts t k held lost)
    (hperm : (held ++ lost).Perm (held' ++ lost')) : Accounts t k held' lost' where
  once := hperm.nodup_iff.mp h.once
  inUse := fun n => (h.inUse n).trans hperm.mem_iff

theorem Accounts.of_kind_ne (h : Accounts t k held lost) (hlegal : Legal t calls)
    (hkind : ∀ call ∈ calls, call.kind ≠ k) : Accounts (after t calls) k held lost where
  once := h.once
  inUse := fun n => (hlegal.after_of_kind_ne hkind).trans (h.inUse n)

theorem Accounts.acquire (h : Accounts t k held lost) (hfree : t n = none) :
    Accounts (Call.after t (.acquire n k)) k (n :: held) lost := by
  have hnew : n ∉ held ++ lost := fun hmem =>
    absurd (hfree.symm.trans ((h.inUse n).mpr hmem)) (by simp)
  refine ⟨List.nodup_cons.mpr ⟨hnew, h.once⟩, fun m => ?_⟩
  rw [List.cons_append, List.mem_cons, ← h.inUse m]
  by_cases hm : m = n
  · subst hm
    simp [Call.after]
  · simp [Call.after, hm]

theorem Accounts.release (h : Accounts t k (n :: held) lost) :
    Accounts (Call.after t (.release n k)) k held lost := by
  have hnodup := h.once
  rw [List.cons_append, List.nodup_cons] at hnodup
  refine ⟨hnodup.2, fun m => ?_⟩
  by_cases hm : m = n
  · subst hm
    exact iff_of_false (by simp [Call.after]) hnodup.1
  · rw [show Call.after t (.release n k) m = t m from Function.update_of_ne hm .., h.inUse m,
      List.cons_append, List.mem_cons]
    exact or_iff_right hm

theorem Accounts.inUse_of_mem (h : Accounts t k held lost) (hn : n ∈ held) : t n = some k :=
  (h.inUse n).mpr (List.mem_append_left _ hn)

/-- The numbers in use for the owner that it does not hold are those that it has lost. -/
theorem Accounts.lost_iff (h : Accounts t k held lost) : t n = some k ∧ n ∉ held ↔ n ∈ lost := by
  rw [h.inUse n, List.mem_append]
  constructor
  · rintro ⟨hheld | hlost, hnot⟩
    · exact absurd hheld hnot
    · exact hlost
  · exact fun hlost => ⟨Or.inr hlost, fun hheld => h.once.disjoint hheld hlost⟩

/-- **Accounting.** With fresh numbers, the calls are legal, and what is in use for the owner is what
it holds then and what it has lost so far. -/
theorem Managed.accounts (h : Managed k held calls held' lost) (hfresh : FreshNumbers t calls)
    (haccounts : Accounts t k held lost') :
    Legal t calls ∧ Accounts (after t calls) k held' (lost ++ lost') := by
  induction h generalizing t lost' with
  | done held => exact ⟨trivial, haccounts⟩
  | acquired n _ ih =>
    obtain ⟨hlegal, hafter⟩ := ih hfresh.2 (haccounts.acquire hfresh.1)
    exact ⟨⟨hfresh.1, hlegal⟩, hafter⟩
  | released n _ ih =>
    obtain ⟨hlegal, hafter⟩ := ih hfresh.2 haccounts.release
    exact ⟨⟨haccounts.inUse_of_mem List.mem_cons_self, hlegal⟩, hafter⟩
  | lost n _ ih =>
    obtain ⟨hlegal, hafter⟩ := ih hfresh (haccounts.perm List.perm_middle.symm)
    exact ⟨hlegal, hafter.perm (List.Perm.append_left _ List.perm_middle)⟩
  | reordered hperm _ ih => exact ih hfresh (haccounts.perm (hperm.append_right _))

/-- **In the middle.** As many calls as have been made are legal when their numbers were fresh. -/
theorem Managed.legal_prefix {made : List (Call κ)} (h : Managed k held calls held' lost)
    (hmade : made <+: calls) (hfresh : FreshNumbers t made) (haccounts : Accounts t k held lost') :
    Legal t made := by
  induction h generalizing t lost' made with
  | done held =>
    obtain rfl := List.prefix_nil.mp hmade
    trivial
  | acquired n _ ih =>
    rcases List.prefix_cons_iff.mp hmade with rfl | ⟨later, rfl, hlater⟩
    · trivial
    · exact ⟨hfresh.1, ih hlater hfresh.2 (haccounts.acquire hfresh.1)⟩
  | released n _ ih =>
    rcases List.prefix_cons_iff.mp hmade with rfl | ⟨later, rfl, hlater⟩
    · trivial
    · exact ⟨haccounts.inUse_of_mem List.mem_cons_self, ih hlater hfresh.2 haccounts.release⟩
  | lost n _ ih => exact ih hmade hfresh (haccounts.perm List.perm_middle.symm)
  | reordered hperm _ ih => exact ih hmade hfresh (haccounts.perm (hperm.append_right _))

theorem Managed.kind (h : Managed k held calls held' lost) : ∀ call ∈ calls, call.kind = k := by
  induction h with
  | done held => exact fun call hcall => absurd hcall List.not_mem_nil
  | acquired n _ ih | released n _ ih =>
    intro call hcall
    rcases List.mem_cons.mp hcall with rfl | hcall
    · rfl
    · exact ih call hcall
  | lost n _ ih => exact ih
  | reordered _ _ ih => exact ih

theorem Managed.trans (h : Managed k held calls held' lost)
    (h' : Managed k held' calls' held'' lost') :
    Managed k held (calls ++ calls') held'' (lost ++ lost') := by
  induction h with
  | done held => exact h'
  | acquired n _ ih => exact .acquired n (ih h')
  | released n _ ih => exact .released n (ih h')
  | lost n _ ih => exact .lost n (ih h')
  | reordered hperm _ ih => exact .reordered hperm (ih h')

theorem Managed.reorder (h : Managed k held calls held' lost) (hperm : held'.Perm held'') :
    Managed k held calls held'' lost := by
  have := h.trans (.reordered hperm (.done held''))
  rwa [List.append_nil, List.append_nil] at this

/-- **Frame.** Numbers that the code does not deal with. -/
theorem Managed.frame (h : Managed k held calls held' lost) (rest : List ℕ) :
    Managed k (held ++ rest) calls (held' ++ rest) lost := by
  induction h with
  | done held => exact .done _
  | acquired n _ ih => exact .acquired n ih
  | released n _ ih => exact .released n ih
  | lost n _ ih => exact .lost n ih
  | reordered hperm _ ih => exact .reordered (hperm.append_right rest) ih

theorem managed_releaseAll (k : κ) (held : List ℕ) :
    Managed k held (held.map fun n => .release n k) [] [] := by
  induction held with
  | nil => exact .done []
  | cons n held ih => exact .released n ih

/-- The owner puts a new number in the place of an old one, if there is one. -/
theorem managed_replace (k : κ) (left right : List ℕ) (old : Option ℕ) (n : ℕ) :
    Managed k (left ++ (old.toList ++ right)) [.acquire n k] (left ++ (n :: right)) old.toList := by
  cases old with
  | none => exact .acquired n (.reordered List.perm_middle.symm (.done _))
  | some m =>
    refine .reordered List.perm_middle ?_
    exact .lost m (.acquired n (.reordered List.perm_middle.symm (.done _)))

end Accounting

/-! ### Several users of one table -/

section Shares

variable {ι : Type*} [DecidableEq ι] {t : Table (ι × κ)} {i j : ι} {n : ℕ} {k : κ}
  {call : Call κ} {calls : List (Call κ)}

/-- The call of a user, on the table of all. -/
def Call.of (i : ι) : Call κ → Call (ι × κ)
  | .acquire n k => .acquire n (i, k)
  | .use n k => .use n (i, k)
  | .release n k => .release n (i, k)

/-- What the table holds for a user. -/
def share (t : Table (ι × κ)) (i : ι) : Table κ :=
  fun n => (t n).bind fun held => if held.1 = i then some held.2 else none

theorem share_eq_some : share t i n = some k ↔ t n = some (i, k) := by
  unfold share
  cases t n with
  | none => simp
  | some held =>
    obtain ⟨j, k'⟩ := held
    simp only [Option.bind_some, Option.ite_none_right_eq_some, Option.some.injEq, Prod.mk.injEq]

theorem share_of_none (h : t n = none) : share t i n = none := by
  rw [share, h, Option.bind_none]

theorem share_of_ne (h : t n = some (i, k)) (hne : j ≠ i) : share t j n = none := by
  rw [share, h, Option.bind_some, if_neg hne.symm]

theorem Call.share_after : share ((call.of i).after t) i = call.after (share t i) := by
  funext m
  cases call with
  | use n k => rfl
  | acquire n k =>
    simp only [Call.of, Call.after]
    by_cases hm : m = n
    · subst hm
      rw [Function.update_self, share_eq_some, Function.update_self]
    · rw [Function.update_of_ne hm, share, Function.update_of_ne hm, share]
  | release n k =>
    simp only [Call.of, Call.after]
    by_cases hm : m = n
    · subst hm
      rw [Function.update_self, share_of_none (Function.update_self ..)]
    · rw [Function.update_of_ne hm, share, Function.update_of_ne hm, share]

/-- **Frame.** A call that is allowed leaves the shares of the others. -/
theorem Call.Allowed.share_others (h : (call.of i).Allowed t) (hne : j ≠ i) :
    share ((call.of i).after t) j = share t j := by
  funext m
  cases call with
  | use n k => rfl
  | acquire n k =>
    by_cases hm : m = n
    · subst hm
      exact (share_of_ne (Function.update_self ..) hne).trans (share_of_none h).symm
    · rw [Call.of, Call.after, share, Function.update_of_ne hm, share]
  | release n k =>
    by_cases hm : m = n
    · subst hm
      exact (share_of_none (Function.update_self ..)).trans (share_of_ne h hne).symm
    · rw [Call.of, Call.after, share, Function.update_of_ne hm, share]

theorem Call.FreshNumbers.share (h : (call.of i).FreshNumbers t) :
    call.FreshNumbers (share t i) := by
  cases call with
  | acquire n k => exact share_of_none h
  | _ => trivial

/-- **Allowed for all.** A call that is allowed on the share of its user is allowed when the number
that it hands out is free in the whole table. -/
theorem Call.Allowed.of_share (h : call.Allowed (share t i)) (hfresh : (call.of i).FreshNumbers t) :
    (call.of i).Allowed t := by
  cases call with
  | acquire n k => exact hfresh
  | use n k => exact share_eq_some.mp h
  | release n k => exact share_eq_some.mp h

end Shares

end Handles

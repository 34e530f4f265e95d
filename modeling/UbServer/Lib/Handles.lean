import Mathlib.Logic.Function.Basic
import Mathlib.Tactic.Common

/-!
# Handles with reusable numbers

A table maps the numbers in use to what they stand for. A number that has been released may be handed
out again, so that a stale call would hit what it stands for now.

* `Call`: acquire, use or release a number, and what the caller takes it to stand for.
* `Legal`: each call finds in the table what the caller takes the number to stand for.
* `FreshNumbers`: only free numbers are handed out, the part of `Legal` that is up to the table.
* `Legal.releasedOnce`: in a legal list of calls, what is acquired is released at most once, and used
  only before that.
-/

namespace Handles

variable {κ : Type*}

abbrev Table (κ : Type*) := ℕ → Option κ

inductive Call (κ : Type*) where
  | acquire (n : ℕ) (k : κ)
  | use (n : ℕ) (k : κ)
  | release (n : ℕ) (k : κ)
  deriving DecidableEq

def Call.number : Call κ → ℕ
  | .acquire n _ | .use n _ | .release n _ => n

def Call.kind : Call κ → κ
  | .acquire _ k | .use _ k | .release _ k => k

/-- The table after a call. -/
def Call.after (t : Table κ) : Call κ → Table κ
  | .acquire n k => Function.update t n (some k)
  | .use _ _ => t
  | .release n _ => Function.update t n none

/-- The call finds what its caller takes the number to stand for. -/
def Call.Allowed (t : Table κ) : Call κ → Prop
  | .acquire n _ => t n = none
  | .use n k => t n = some k
  | .release n k => t n = some k

/-- The call hands out no number in use. -/
def Call.FreshNumbers (t : Table κ) : Call κ → Prop
  | .acquire n _ => t n = none
  | _ => True

def after (t : Table κ) (calls : List (Call κ)) : Table κ := calls.foldl Call.after t

def Legal (t : Table κ) : List (Call κ) → Prop
  | [] => True
  | call :: calls => call.Allowed t ∧ Legal (call.after t) calls

def FreshNumbers (t : Table κ) : List (Call κ) → Prop
  | [] => True
  | call :: calls => call.FreshNumbers t ∧ FreshNumbers (call.after t) calls

instance [DecidableEq κ] (t : Table κ) (call : Call κ) : Decidable (call.FreshNumbers t) := by
  cases call <;> unfold Call.FreshNumbers <;> infer_instance

instance decidableFreshNumbers [DecidableEq κ] : (t : Table κ) → (calls : List (Call κ)) →
    Decidable (FreshNumbers t calls)
  | _, [] => inferInstanceAs (Decidable True)
  | t, call :: calls =>
    have := decidableFreshNumbers (call.after t) calls
    inferInstanceAs (Decidable (_ ∧ _))

section Tables

variable {t : Table κ} {calls calls' : List (Call κ)} {n : ℕ} {k : κ}

@[simp] theorem after_cons (t : Table κ) (call : Call κ) (calls : List (Call κ)) :
    after t (call :: calls) = after (call.after t) calls := rfl

theorem after_append (t : Table κ) (calls calls' : List (Call κ)) :
    after t (calls ++ calls') = after (after t calls) calls' := List.foldl_append

theorem legal_append :
    Legal t (calls ++ calls') ↔ Legal t calls ∧ Legal (after t calls) calls' := by
  induction calls generalizing t with
  | nil => exact (iff_of_eq (true_and _)).symm
  | cons call calls ih =>
    rw [List.cons_append, Legal, Legal, ih, and_assoc]
    rfl

theorem freshNumbers_append : FreshNumbers t (calls ++ calls') ↔
    FreshNumbers t calls ∧ FreshNumbers (after t calls) calls' := by
  induction calls generalizing t with
  | nil => exact (iff_of_eq (true_and _)).symm
  | cons call calls ih =>
    rw [List.cons_append, FreshNumbers, FreshNumbers, ih, and_assoc]
    rfl

theorem Call.Allowed.after_of_kind_ne {call : Call κ} (h : call.Allowed t) (hk : call.kind ≠ k) :
    call.after t n = some k ↔ t n = some k := by
  cases call with
  | use m k' => rfl
  | acquire m k' =>
    by_cases hn : n = m
    · subst hn
      have hfree : t n = none := h
      simp only [Call.after, Function.update_self, hfree, Option.some.injEq, reduceCtorEq, iff_false]
      exact hk
    · simp [Call.after, Function.update_of_ne hn]
  | release m k' =>
    by_cases hn : n = m
    · subst hn
      have hheld : t n = some k' := h
      simp only [Call.after, Function.update_self, hheld, Option.some.injEq, reduceCtorEq, false_iff]
      exact hk
    · simp [Call.after, Function.update_of_ne hn]

/-- **Frame.** Legal calls that take no number to stand for `k` leave the numbers that do. -/
theorem Legal.after_of_kind_ne (h : Legal t calls) (hk : ∀ call ∈ calls, call.kind ≠ k) :
    after t calls n = some k ↔ t n = some k := by
  induction calls generalizing t with
  | nil => rfl
  | cons call calls ih =>
    rw [after_cons, ih h.2 fun c hc => hk c (List.mem_cons_of_mem _ hc)]
    exact h.1.after_of_kind_ne (hk call List.mem_cons_self)

theorem Call.after_of_ne {call : Call κ} (h : call.number ≠ n) : call.after t n = t n := by
  cases call with
  | use m k' => rfl
  | acquire m k' => exact Function.update_of_ne (Ne.symm h) ..
  | release m k' => exact Function.update_of_ne (Ne.symm h) ..

end Tables

/-! ### The life of a handle -/

/-- The calls after a number was acquired, with the table after them: the number is in use still and
has only been used, or it was used until it was released, and nobody used or released it after that
unless it had been acquired again. -/
inductive ReleasedOnce (t : Table κ) (n : ℕ) (k : κ) (calls : List (Call κ)) : Prop
  | held : t n = some k → (∀ call ∈ calls, call.number = n → call = .use n k) →
      ReleasedOnce t n k calls
  | released (before later : List (Call κ)) : calls = before ++ .release n k :: later →
      (∀ call ∈ before, call.number = n → call = .use n k) →
      (∀ l call l', later = l ++ call :: l' → call.number = n → (∀ k', call ≠ .acquire n k') →
        ∃ k', .acquire n k' ∈ l) → ReleasedOnce t n k calls

section Life

variable {t : Table κ} {calls : List (Call κ)} {n : ℕ} {k : κ}

theorem Legal.acquired_first (h : Legal t calls) (ht : t n = none) {l l' : List (Call κ)}
    {call : Call κ} (hcalls : calls = l ++ call :: l') (hn : call.number = n)
    (hcall : ∀ k', call ≠ .acquire n k') : ∃ k', .acquire n k' ∈ l := by
  induction l generalizing t calls with
  | nil =>
    subst hcalls
    have hallowed : call.Allowed t := h.1
    cases call with
    | acquire m k' =>
      obtain rfl : m = n := hn
      exact absurd rfl (hcall k')
    | use m k' =>
      obtain rfl : m = n := hn
      exact absurd (ht.symm.trans hallowed) (by simp)
    | release m k' =>
      obtain rfl : m = n := hn
      exact absurd (ht.symm.trans hallowed) (by simp)
  | cons first l ih =>
    subst hcalls
    have hfirst : first.Allowed t := h.1
    by_cases hm : first.number = n
    · cases first with
      | acquire m k' =>
        obtain rfl : m = n := hm
        exact ⟨k', List.mem_cons_self⟩
      | use m k' =>
        obtain rfl : m = n := hm
        exact absurd (ht.symm.trans hfirst) (by simp)
      | release m k' =>
        obtain rfl : m = n := hm
        exact absurd (ht.symm.trans hfirst) (by simp)
    · obtain ⟨k', hk'⟩ := ih h.2 ((Call.after_of_ne hm).trans ht) rfl
      exact ⟨k', List.mem_cons_of_mem _ hk'⟩

/-- **Released once.** In legal calls, a number in use is used until it is released. -/
theorem Legal.releasedOnce (h : Legal t calls) (ht : t n = some k) :
    ReleasedOnce (after t calls) n k calls := by
  induction calls generalizing t with
  | nil => exact .held ht fun call hcall => absurd hcall List.not_mem_nil
  | cons first calls ih =>
    have hfirst : first.Allowed t := h.1
    -- the calls after a first one that leaves the number in use
    have hlater : (first.number = n → first = .use n k) → first.after t n = some k →
        ReleasedOnce (after t (first :: calls)) n k (first :: calls) := by
      intro huse hafter
      have hmem : ∀ {l : List (Call κ)}, (∀ call ∈ l, call.number = n → call = .use n k) →
          ∀ call ∈ first :: l, call.number = n → call = .use n k := by
        intro l hl call hcall
        rcases List.mem_cons.mp hcall with rfl | hcall
        · exact huse
        · exact hl call hcall
      cases ih h.2 hafter with
      | held hin hheld => exact .held hin (hmem hheld)
      | released before later hcalls hbefore hagain =>
        exact .released (first :: before) later (by rw [hcalls, List.cons_append]) (hmem hbefore)
          hagain
    by_cases hm : first.number = n
    · cases first with
      | acquire m k' =>
        obtain rfl : m = n := hm
        exact absurd (ht.symm.trans hfirst) (by simp)
      | use m k' =>
        obtain rfl : m = n := hm
        obtain rfl : k' = k := Option.some.inj (hfirst.symm.trans ht)
        exact hlater (fun _ => rfl) ht
      | release m k' =>
        obtain rfl : m = n := hm
        obtain rfl : k' = k := Option.some.inj (hfirst.symm.trans ht)
        refine .released [] calls rfl (fun call hcall => absurd hcall List.not_mem_nil) ?_
        intro l call l' hcalls hn hcall
        exact h.2.acquired_first (Function.update_self ..) hcalls hn hcall
    · exact hlater (fun hn => absurd hn hm) ((Call.after_of_ne hm).trans ht)

/-- What is acquired in a legal list of calls is released at most once. -/
theorem Legal.releasedOnce_of_acquired {l l' : List (Call κ)}
    (h : Legal t (l ++ .acquire n k :: l')) :
    ReleasedOnce (after t (l ++ .acquire n k :: l')) n k l' := by
  rw [after_append, after_cons]
  exact (legal_append.mp h).2.2.releasedOnce (Function.update_self ..)

end Life

end Handles

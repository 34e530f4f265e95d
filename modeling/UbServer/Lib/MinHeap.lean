import Mathlib.Order.Basic
import Mathlib.Order.Defs.LinearOrder
import Mathlib.Logic.Equiv.Basic
import Mathlib.Data.Finset.Card
import Mathlib.Data.Finset.Range
import Mathlib.Data.Finset.Image
import Mathlib.Data.Multiset.Range
import Mathlib.Tactic.Common

/-!
# Binary min-heaps in an array, and arrays with a position table

The heap is a function `key : ℕ → τ` on slots, of which the first `n` are in use.

* `Ordered R key n`: every slot of the region `R` is at or after its parent. With
  `R = Set.Ioi 0` this is the whole heap.
* `DownOrder R key n hole`: what a sift down from `hole` starts from. `DownOrder.swap` moves the
  hole to the smallest child, `DownOrder.finish` ends the sift.
* `UpOrder key n hole`: what a sift up from `hole` starts from, in the same way.
* `subtreeBelow i`: the slots of the subtree of `i` without `i` itself, closed under children.
* `swapAt f i j`: the array after exchanging two slots; `elements` of it are those before.
* `PermutedOn S f f'`: the array `f'` holds the values of `f`, moved about within `S`.
* `Tracks name pos n`: the table `pos` gives the slot of every name stored in the first `n` slots,
  and nothing else. It survives exchanging two slots, appending, overwriting and removing the last.
-/

namespace MinHeap

/-! ### The implicit tree -/

def parent (i : ℕ) : ℕ := (i - 1) / 2

/-- `c` is a child of `p`. Slot 0 is no slot's child, although `parent 0 = 0`. -/
def IsChild (c p : ℕ) : Prop := 0 < c ∧ parent c = p

theorem parent_lt {i : ℕ} (h : 0 < i) : parent i < i := by unfold parent; omega

theorem isChild_iff {c p : ℕ} : IsChild c p ↔ c = 2 * p + 1 ∨ c = 2 * p + 2 := by
  unfold IsChild parent; omega

theorem IsChild.lt {c p : ℕ} (h : IsChild c p) : p < c := h.2 ▸ parent_lt h.1

/-- `j` is a slot of the subtree rooted at `i`. -/
inductive InSubtree (i : ℕ) : ℕ → Prop
  | root : InSubtree i i
  | child {p c : ℕ} (h : InSubtree i p) (hc : IsChild c p) : InSubtree i c

namespace InSubtree

variable {i j k c : ℕ}

theorem le (h : InSubtree i j) : i ≤ j := by
  induction h with
  | root => exact le_rfl
  | child _ hc ih => exact ih.trans hc.lt.le

theorem trans (h : InSubtree i j) (h' : InSubtree j k) : InSubtree i k := by
  induction h' with
  | root => exact h
  | child _ hc ih => exact ih.child hc

theorem of_isChild (hc : IsChild c i) : InSubtree i c := root.child hc

theorem exists_child (h : InSubtree i j) (hne : j ≠ i) : ∃ c, IsChild c i ∧ InSubtree c j := by
  induction h with
  | root => exact absurd rfl hne
  | @child p c hp hc ih =>
    by_cases hpi : p = i
    · subst hpi
      exact ⟨c, hc, root⟩
    · obtain ⟨d, hd, hdp⟩ := ih hpi
      exact ⟨d, hd, hdp.child hc⟩

theorem parent (h : InSubtree i j) (hne : j ≠ i) : InSubtree i (parent j) := by
  cases h with
  | root => exact absurd rfl hne
  | child hp hc => rwa [hc.2]

end InSubtree

/-- The slots of the subtree of `i` other than `i`. -/
def subtreeBelow (i : ℕ) : Set ℕ := { j | InSubtree i j ∧ j ≠ i }

theorem lt_of_mem_subtreeBelow {i j : ℕ} (h : j ∈ subtreeBelow i) : i < j :=
  lt_of_le_of_ne h.1.le h.2.symm

theorem pos_of_mem_subtreeBelow {i j : ℕ} (h : j ∈ subtreeBelow i) : 0 < j :=
  (Nat.zero_le i).trans_lt (lt_of_mem_subtreeBelow h)

theorem InSubtree.mem_subtreeBelow {i j c : ℕ} (h : InSubtree i j) (hc : IsChild c j) :
    c ∈ subtreeBelow i :=
  ⟨h.child hc, (h.le.trans_lt hc.lt).ne'⟩

/-! ### Exchanging two slots -/

section Swap

variable {α β : Type*}

/-- The array after exchanging the slots `i` and `j`. -/
def swapAt (f : ℕ → α) (i j : ℕ) : ℕ → α := Function.update (Function.update f i (f j)) j (f i)

theorem swapAt_eq_comp (f : ℕ → α) (i j : ℕ) : swapAt f i j = f ∘ Equiv.swap i j := by
  funext k
  unfold swapAt
  by_cases hj : k = j
  · subst hj; simp
  · by_cases hi : k = i
    · subst hi; rw [Function.update_of_ne hj]; simp
    · rw [Function.update_of_ne hj, Function.update_of_ne hi]
      simp [Equiv.swap_apply_of_ne_of_ne hi hj]

@[simp] theorem swapAt_left (f : ℕ → α) (i j : ℕ) : swapAt f i j i = f j := by
  simp [swapAt_eq_comp]

@[simp] theorem swapAt_right (f : ℕ → α) (i j : ℕ) : swapAt f i j j = f i := by
  simp [swapAt_eq_comp]

theorem swapAt_of_ne (f : ℕ → α) {i j k : ℕ} (hi : k ≠ i) (hj : k ≠ j) :
    swapAt f i j k = f k := by
  simp [swapAt_eq_comp, Equiv.swap_apply_of_ne_of_ne hi hj]

theorem comp_swapAt (g : α → β) (f : ℕ → α) (i j : ℕ) :
    (fun k => g (swapAt f i j k)) = swapAt (fun k => g (f k)) i j := by
  simp only [swapAt_eq_comp]; rfl

/-- The values of the first `n` slots, each as often as it is stored. -/
def elements (f : ℕ → α) (n : ℕ) : Multiset α := (Multiset.range n).map f

theorem elements_comp_perm (f : ℕ → α) {n : ℕ} (σ : Equiv.Perm ℕ) (hσ : ∀ j, n ≤ j → σ j = j) :
    elements (f ∘ σ) n = elements f n := by
  have hperm : (Finset.range n).map σ.toEmbedding = Finset.range n := by
    refine Finset.map_perm fun k hk => Finset.mem_coe.mpr (Finset.mem_range.mpr ?_)
    by_contra hle
    exact hk (hσ k (not_lt.mp hle))
  have hrange : (Multiset.range n).map σ = Multiset.range n := congrArg Finset.val hperm
  unfold elements
  rw [← Multiset.map_map, hrange]

theorem elements_swapAt (f : ℕ → α) {i j n : ℕ} (hi : i < n) (hj : j < n) :
    elements (swapAt f i j) n = elements f n := by
  rw [swapAt_eq_comp]
  refine elements_comp_perm f _ fun k hk => ?_
  exact Equiv.swap_apply_of_ne_of_ne (hi.trans_le hk).ne' (hj.trans_le hk).ne'

theorem elements_congr {f g : ℕ → α} {n : ℕ} (h : ∀ i < n, f i = g i) :
    elements f n = elements g n :=
  Multiset.map_congr rfl fun i hi => h i (Multiset.mem_range.mp hi)

theorem elements_succ (f : ℕ → α) (n : ℕ) : elements f (n + 1) = f n ::ₘ elements f n := by
  unfold elements
  rw [Multiset.range_succ, Multiset.map_cons]

theorem elements_update (f : ℕ → α) {i n : ℕ} (hi : i < n) (a : α) :
    f i ::ₘ elements (Function.update f i a) n = a ::ₘ elements f n := by
  induction n with
  | zero => omega
  | succ n ih =>
    rw [elements_succ, elements_succ]
    rcases Nat.lt_succ_iff_lt_or_eq.mp hi with hi | rfl
    · rw [Function.update_of_ne hi.ne', Multiset.cons_swap, ih hi, Multiset.cons_swap]
    · rw [Function.update_self, Multiset.cons_swap,
        elements_congr fun k hk => Function.update_of_ne hk.ne a f]

end Swap

section PermutedOn

variable {α β : Type*} {S S' : Set ℕ} {f f' f'' : ℕ → α}

/-- The array `f'` holds the values of `f`, moved about within `S`. -/
def PermutedOn (S : Set ℕ) (f f' : ℕ → α) : Prop :=
  ∃ σ : Equiv.Perm ℕ, (∀ j ∉ S, σ j = j) ∧ f' = f ∘ σ

namespace PermutedOn

theorem refl (S : Set ℕ) (f : ℕ → α) : PermutedOn S f f := ⟨Equiv.refl ℕ, fun _ _ => rfl, rfl⟩

theorem trans (h : PermutedOn S f f') (h' : PermutedOn S f' f'') : PermutedOn S f f'' := by
  obtain ⟨σ, hσ, rfl⟩ := h
  obtain ⟨τ, hτ, rfl⟩ := h'
  refine ⟨τ.trans σ, fun j hj => ?_, rfl⟩
  rw [Equiv.trans_apply, hτ j hj, hσ j hj]

theorem mono (h : PermutedOn S f f') (hS : S ⊆ S') : PermutedOn S' f f' := by
  obtain ⟨σ, hσ, e⟩ := h
  exact ⟨σ, fun j hj => hσ j fun hjS => hj (hS hjS), e⟩

theorem swapAt {i j : ℕ} (f : ℕ → α) (hi : i ∈ S) (hj : j ∈ S) :
    PermutedOn S f (swapAt f i j) := by
  refine ⟨Equiv.swap i j, fun k hk => ?_, swapAt_eq_comp f i j⟩
  exact Equiv.swap_apply_of_ne_of_ne (fun e => hk (e ▸ hi)) fun e => hk (e ▸ hj)

theorem elements_eq (h : PermutedOn S f f') {n : ℕ} (hS : ∀ j ∈ S, j < n) :
    elements f' n = elements f n := by
  obtain ⟨σ, hσ, rfl⟩ := h
  exact elements_comp_perm f σ fun j hj => hσ j fun hjS => (hS j hjS).not_ge hj

/-- A permutation that fixes every slot outside keeps the inside inside. -/
theorem exists_from (h : PermutedOn S f f') {j : ℕ} (hj : j ∈ S) : ∃ k ∈ S, f' j = f k := by
  obtain ⟨σ, hσ, rfl⟩ := h
  refine ⟨σ j, ?_, rfl⟩
  by_contra hout
  have hfix : σ j = j := σ.injective (hσ (σ j) hout)
  exact hout (hfix.symm ▸ hj)

theorem symm (h : PermutedOn S f f') : PermutedOn S f' f := by
  obtain ⟨σ, hσ, rfl⟩ := h
  refine ⟨σ.symm, fun j hj => ?_, ?_⟩
  · rw [Equiv.symm_apply_eq, hσ j hj]
  · funext j
    simp

theorem exists_to (h : PermutedOn S f f') {j : ℕ} (hj : j ∈ S) : ∃ k ∈ S, f' k = f j := by
  obtain ⟨k, hk, e⟩ := h.symm.exists_from hj
  exact ⟨k, hk, e.symm⟩

end PermutedOn

end PermutedOn

/-! ### Heap order -/

section Order

variable {τ : Type*} [LinearOrder τ] {R : Set ℕ} {key : ℕ → τ} {n hole c : ℕ}

/-- Every used slot of the region is at or after its parent. -/
def Ordered (R : Set ℕ) (key : ℕ → τ) (n : ℕ) : Prop :=
  ∀ i < n, i ∈ R → key (parent i) ≤ key i

theorem Ordered.root_le (h : Ordered (Set.Ioi 0) key n) : ∀ i < n, key 0 ≤ key i := by
  intro i
  induction i using Nat.strongRecOn with
  | ind i ih =>
    intro hi
    rcases Nat.eq_zero_or_pos i with rfl | hpos
    · exact le_rfl
    · have hp := parent_lt hpos
      exact (ih _ hp (by omega)).trans (h i hi hpos)

/-- The order a sift down from `hole` starts from: every pair whose parent is not the hole is in
order, and the hole's children are at or after the hole's parent. -/
structure DownOrder (R : Set ℕ) (key : ℕ → τ) (n hole : ℕ) : Prop where
  except : ∀ i < n, i ∈ R → parent i ≠ hole → key (parent i) ≤ key i
  grand : hole ∈ R → ∀ d < n, IsChild d hole → key (parent hole) ≤ key d

theorem Ordered.raise (h : Ordered R key n) (hR : ∀ i ∈ R, 0 < i)
    (hdown : ∀ d, IsChild d hole → hole ∈ R → d ∈ R) {key' : ℕ → τ}
    (hle : key hole ≤ key' hole) (hne : ∀ i < n, i ≠ hole → key' i = key i) (hn : hole < n) :
    DownOrder R key' n hole := by
  constructor
  · intro i hi hiR hp
    have hlt := parent_lt (hR i hiR)
    rw [hne (parent i) (by omega) hp]
    by_cases hih : i = hole
    · subst hih; exact (h i hi hiR).trans hle
    · rw [hne i hi hih]; exact h i hi hiR
  · intro hhR d hd hc
    have hlt := parent_lt (hR hole hhR)
    have hhd := hc.lt
    rw [hne (parent hole) (by omega) (by omega), hne d hd (by omega)]
    have hstep := h d hd (hdown d hc hhR)
    rw [hc.2] at hstep
    exact (h hole hn hhR).trans hstep

/-- One turn of a sift down: the smallest child is smaller than the hole, and changes place with
it. -/
theorem DownOrder.swap (h : DownOrder R key n hole) (hR : ∀ i ∈ R, 0 < i)
    (hdown : ∀ i, i ∈ R → ∀ d, IsChild d i → d ∈ R) (hcR : c ∈ R) (hc : IsChild c hole)
    (hcn : c < n) (hlt : key c < key hole) (hmin : ∀ d < n, IsChild d hole → key c ≤ key d) :
    DownOrder R (swapAt key hole c) n c := by
  have hhc := hc.lt
  constructor
  · intro i hi hiR hpc
    have hpi := parent_lt (hR i hiR)
    by_cases hic : i = c
    · subst hic
      rw [hc.2, swapAt_left, swapAt_right]; exact hlt.le
    by_cases hih : i = hole
    · -- the hole itself, under its old parent
      subst hih
      rw [swapAt_left, swapAt_of_ne _ (by omega) hpc]
      exact h.grand hiR c hcn hc
    · rw [swapAt_of_ne key hih hic]
      by_cases hph : parent i = hole
      · rw [hph, swapAt_left]; exact hmin i hi ⟨hR i hiR, hph⟩
      · rw [swapAt_of_ne key hph hpc]; exact h.except i hi hiR hph
  · intro _ d hd hdc
    have hcd := hdc.lt
    rw [hc.2, swapAt_left, swapAt_of_ne key (by omega) (by omega)]
    have := h.except d hd (hdown c hcR d hdc) (by rw [hdc.2]; omega)
    rwa [hdc.2] at this

theorem DownOrder.of_children (h : ∀ c, IsChild c hole → Ordered (subtreeBelow c) key n) :
    DownOrder (subtreeBelow hole) key n hole := by
  constructor
  · intro i hi hiR hp
    obtain ⟨c, hc, hci⟩ := hiR.1.exists_child hiR.2
    have hne : i ≠ c := by
      rintro rfl
      exact hp hc.2
    exact h c hc i hi ⟨hci, hne⟩
  · intro hh
    exact absurd rfl hh.2

theorem Ordered.subtree_root_le {i : ℕ} (h : Ordered (subtreeBelow i) key n) {j : ℕ}
    (hj : InSubtree i j) : j < n → key i ≤ key j := by
  induction hj with
  | root => exact fun _ => le_rfl
  | @child p c hp hc ih =>
    intro hcn
    have hpc := hc.lt
    have hstep := h c hcn (hp.mem_subtreeBelow hc)
    rw [hc.2] at hstep
    exact (ih (hpc.trans hcn)).trans hstep

theorem DownOrder.finish (h : DownOrder R key n hole) (hR : ∀ i ∈ R, 0 < i)
    (hstop : ∀ d < n, IsChild d hole → key hole ≤ key d) : Ordered R key n := by
  intro i hi hiR
  by_cases hp : parent i = hole
  · rw [hp]; exact hstop i hi ⟨hR i hiR, hp⟩
  · exact h.except i hi hiR hp

/-- The order a sift up from `hole` starts from: every pair whose child is not the hole is in order,
and the hole's children are at or after the hole's parent. -/
structure UpOrder (key : ℕ → τ) (n hole : ℕ) : Prop where
  except : ∀ i < n, 0 < i → i ≠ hole → key (parent i) ≤ key i
  grand : 0 < hole → ∀ d < n, IsChild d hole → key (parent hole) ≤ key d

/-- One turn of a sift up: the hole is before its parent, and changes place with it. -/
theorem UpOrder.swap (h : UpOrder key n hole) (hpos : 0 < hole) (hn : hole < n)
    (hlt : key hole < key (parent hole)) :
    UpOrder (swapAt key hole (parent hole)) n (parent hole) := by
  have hp := parent_lt hpos
  have hup : 0 < parent hole → key (parent (parent hole)) ≤ key (parent hole) :=
    fun h0 => h.except _ (by omega) h0 hp.ne
  constructor
  · intro i hi h0 hne
    have hpi := parent_lt h0
    by_cases hih : i = hole
    · subst hih
      rw [swapAt_left, swapAt_right]
      exact hlt.le
    rw [swapAt_of_ne key hih hne]
    have hold := h.except i hi h0 hih
    by_cases hph : parent i = hole
    · -- a child of the hole, now under the hole's old parent
      rw [hph, swapAt_left]
      exact h.grand hpos i hi ⟨h0, hph⟩
    by_cases hpp : parent i = parent hole
    · rw [hpp] at hold
      rw [hpp, swapAt_right]
      exact hlt.le.trans hold
    · rw [swapAt_of_ne key hph hpp]
      exact hold
  · intro h0 d hd hc
    have hpp := parent_lt h0
    rw [swapAt_of_ne key (by omega) hpp.ne]
    by_cases hdh : d = hole
    · subst hdh
      rw [swapAt_left]
      exact hup h0
    · rw [swapAt_of_ne key hdh hc.lt.ne']
      have hstep := h.except d hd hc.1 hdh
      rw [hc.2] at hstep
      exact (hup h0).trans hstep

theorem UpOrder.finish (h : UpOrder key n hole)
    (hstop : 0 < hole → key (parent hole) ≤ key hole) : Ordered (Set.Ioi 0) key n := by
  intro i hi hpos
  by_cases hih : i = hole
  · subst hih
    exact hstop hpos
  · exact h.except i hi hpos hih

theorem Ordered.lower (h : Ordered (Set.Ioi 0) key n) {key' : ℕ → τ}
    (hle : key' hole ≤ key hole) (hne : ∀ i < n, i ≠ hole → key' i = key i) (hn : hole < n) :
    UpOrder key' n hole := by
  constructor
  · intro i hi hpos hih
    have hlt := parent_lt hpos
    rw [hne i hi hih]
    by_cases hp : parent i = hole
    · rw [hp]
      have hstep := h i hi hpos
      rw [hp] at hstep
      exact hle.trans hstep
    · rw [hne (parent i) (by omega) hp]
      exact h i hi hpos
  · intro hpos d hd hc
    have hlt := parent_lt hpos
    have hhd := hc.lt
    rw [hne (parent hole) (by omega) hlt.ne, hne d hd hhd.ne']
    have hstep := h d hd hc.1
    rw [hc.2] at hstep
    exact (h hole hn hpos).trans hstep

theorem Ordered.push (h : Ordered R key n) {key' : ℕ → τ} (hR : ∀ i ∈ R, 0 < i)
    (hne : ∀ i < n, key' i = key i) (hle : n ∈ R → key (parent n) ≤ key' n) :
    Ordered R key' (n + 1) := by
  intro i hi hiR
  have hp := parent_lt (hR i hiR)
  rw [hne (parent i) (by omega)]
  rcases Nat.lt_succ_iff_lt_or_eq.mp hi with hi | rfl
  · rw [hne i hi]; exact h i hi hiR
  · exact hle hiR

theorem Ordered.shrink {m : ℕ} (h : Ordered R key n) (hR : ∀ i ∈ R, 0 < i) (hm : m ≤ n)
    {key' : ℕ → τ} (hne : ∀ i < m, key' i = key i) : Ordered R key' m := by
  intro i hi hiR
  have hp := parent_lt (hR i hiR)
  rw [hne i hi, hne (parent i) (by omega)]
  exact h i (by omega) hiR

end Order

/-! ### Position tables -/

section Positions

variable {κ : Type*} {name : ℕ → κ} {pos : κ → Option ℕ} {n i j : ℕ}

/-- The table gives the slot of every stored name. It may have more entries. -/
def Locates (name : ℕ → κ) (pos : κ → Option ℕ) (n : ℕ) : Prop := ∀ i < n, pos (name i) = some i

theorem Locates.inj (h : Locates name pos n) (hi : i < n) (hj : j < n) (e : name i = name j) :
    i = j := by
  have := h i hi
  rw [e, h j hj] at this
  exact (Option.some.inj this).symm

theorem Locates.name_ne (h : Locates name pos n) (hi : i < n) (hj : j < n) (hne : i ≠ j) :
    name i ≠ name j := fun e => hne (h.inj hi hj e)

theorem Locates.swap [DecidableEq κ] (h : Locates name pos n) (hi : i < n) (hj : j < n) :
    Locates (swapAt name i j)
      (Function.update (Function.update pos (name j) (some i)) (name i) (some j)) n := by
  intro k hk
  by_cases hkj : k = j
  · subst hkj; rw [swapAt_right, Function.update_self]
  have hne := h.name_ne hk hj hkj
  by_cases hki : k = i
  · subst hki
    rw [swapAt_left, Function.update_of_ne hne.symm, Function.update_self]
  · rw [swapAt_of_ne _ hki hkj, Function.update_of_ne (h.name_ne hk hi hki),
      Function.update_of_ne hne]
    exact h k hk

/-- The table gives the slot of every stored name, and of nothing else. -/
structure Tracks (name : ℕ → κ) (pos : κ → Option ℕ) (n : ℕ) : Prop where
  pos_name : ∀ i < n, pos (name i) = some i
  name_pos : ∀ k i, pos k = some i → i < n ∧ name i = k

theorem Tracks.inj (h : Tracks name pos n) (hi : i < n) (hj : j < n) (e : name i = name j) :
    i = j := Locates.inj h.pos_name hi hj e

theorem Tracks.name_ne (h : Tracks name pos n) (hi : i < n) (hj : j < n) (hne : i ≠ j) :
    name i ≠ name j := fun e => hne (h.inj hi hj e)

theorem Tracks.name_ne_of_pos_none (h : Tracks name pos n) {k : κ} (hk : pos k = none) :
    ∀ i < n, name i ≠ k := by
  rintro i hi rfl
  rw [h.pos_name i hi] at hk
  cases hk

theorem Tracks.le_card [DecidableEq κ] (h : Tracks name pos n) (s : Finset κ)
    (hs : ∀ i < n, name i ∈ s) :
    n ≤ s.card := by
  have himg : ((Finset.range n).image name).card = n := by
    rw [Finset.card_image_of_injOn, Finset.card_range]
    intro i hi j hj e
    exact h.inj (Finset.mem_range.mp hi) (Finset.mem_range.mp hj) e
  rw [← himg]
  refine Finset.card_le_card fun k hk => ?_
  obtain ⟨i, hi, rfl⟩ := Finset.mem_image.mp hk
  exact hs i (Finset.mem_range.mp hi)

theorem Tracks.swap [DecidableEq κ] (h : Tracks name pos n) (hi : i < n) (hj : j < n) :
    Tracks (swapAt name i j)
      (Function.update (Function.update pos (name j) (some i)) (name i) (some j)) n := by
  refine ⟨Locates.swap h.pos_name hi hj, ?_⟩
  intro x k hx
  by_cases hxi : x = name i
  · subst hxi
    rw [Function.update_self] at hx
    obtain rfl := Option.some.inj hx
    exact ⟨hj, swapAt_right _ _ _⟩
  rw [Function.update_of_ne hxi] at hx
  by_cases hxj : x = name j
  · subst hxj
    rw [Function.update_self] at hx
    obtain rfl := Option.some.inj hx
    exact ⟨hi, swapAt_left _ _ _⟩
  · rw [Function.update_of_ne hxj] at hx
    obtain ⟨hk, rfl⟩ := h.name_pos x k hx
    refine ⟨hk, swapAt_of_ne _ ?_ ?_⟩
    · rintro rfl; exact hxi rfl
    · rintro rfl; exact hxj rfl

theorem Tracks.push [DecidableEq κ] (h : Tracks name pos n) {k : κ} (hk : pos k = none) :
    Tracks (Function.update name n k) (Function.update pos k (some n)) (n + 1) := by
  have hne := h.name_ne_of_pos_none hk
  constructor
  · intro i hi
    by_cases hin : i = n
    · subst hin; simp
    · have hin' : i < n := by omega
      rw [Function.update_of_ne hin, Function.update_of_ne (hne i hin')]
      exact h.pos_name i hin'
  · intro x i hx
    by_cases hxk : x = k
    · subst hxk
      rw [Function.update_self] at hx
      obtain rfl := Option.some.inj hx
      exact ⟨by omega, by simp⟩
    · rw [Function.update_of_ne hxk] at hx
      obtain ⟨hi, rfl⟩ := h.name_pos x i hx
      exact ⟨by omega, Function.update_of_ne (by omega) _ _⟩

theorem Tracks.pop [DecidableEq κ] (h : Tracks name pos (n + 1)) (name' : ℕ → κ)
    (hn : ∀ i < n, name' i = name i) :
    Tracks name' (Function.update pos (name n) none) n := by
  constructor
  · intro i hi
    rw [hn i hi, Function.update_of_ne (h.name_ne (by omega) (by omega) (by omega))]
    exact h.pos_name i (by omega)
  · intro x i hx
    by_cases hxn : x = name n
    · subst hxn; simp at hx
    · rw [Function.update_of_ne hxn] at hx
      obtain ⟨hi, rfl⟩ := h.name_pos x i hx
      have hin : i ≠ n := by rintro rfl; exact hxn rfl
      have hi' : i < n := by omega
      exact ⟨hi', hn i hi'⟩

/-- Moving the last name over the slot of another, whose name leaves. -/
theorem Tracks.replaceLast [DecidableEq κ] (h : Tracks name pos (n + 1)) (hi : i < n)
    (name' : ℕ → κ) (hi' : name' i = name n) (hn : ∀ k < n, k ≠ i → name' k = name k) :
    Tracks name' (Function.update (Function.update pos (name i) none) (name n) (some i)) n := by
  have hne : name i ≠ name n := h.name_ne (by omega) (by omega) (by omega)
  have hsw := h.swap (show i < n + 1 by omega) (show n < n + 1 by omega)
  have hpop := hsw.pop name' fun k hk => by
    by_cases hki : k = i
    · subst hki; rw [hi', swapAt_left]
    · rw [hn k hk hki, swapAt_of_ne _ hki (by omega)]
  rw [swapAt_right, Function.update_idem, Function.update_comm hne.symm] at hpop
  exact hpop

theorem Tracks.congr (h : Tracks name pos n) {name' : ℕ → κ} (hn : ∀ i < n, name' i = name i) :
    Tracks name' pos n :=
  ⟨fun i hi => by rw [hn i hi]; exact h.pos_name i hi,
    fun k i hk =>
      ⟨(h.name_pos k i hk).1, by rw [hn i (h.name_pos k i hk).1]; exact (h.name_pos k i hk).2⟩⟩

end Positions

/-! ### Looking a name up -/

section Find

variable {α κ : Type*} (id : α → κ) {slots : ℕ → α} {pos : κ → Option ℕ}
  {n i j : ℕ}

/-- The element the table gives for a name. -/
def find (slots : ℕ → α) (pos : κ → Option ℕ) (k : κ) : Option α := (pos k).map slots

theorem find_eq_some (h : Tracks (fun i => id (slots i)) pos n) {k : κ} {a : α} :
    find slots pos k = some a ↔ ∃ i < n, slots i = a ∧ id a = k := by
  unfold find
  rw [Option.map_eq_some_iff]
  constructor
  · rintro ⟨i, hi, rfl⟩
    exact ⟨i, (h.name_pos k i hi).1, rfl, (h.name_pos k i hi).2⟩
  · rintro ⟨i, hi, rfl, rfl⟩
    exact ⟨i, h.pos_name i hi, rfl⟩

/-- Two tracked arrays that hold the same elements give the same answers. -/
theorem find_congr {slots' : ℕ → α} {pos' : κ → Option ℕ}
    (h : Tracks (fun i => id (slots i)) pos n) (h' : Tracks (fun i => id (slots' i)) pos' n)
    (hsub : ∀ i < n, ∃ j < n, slots' j = slots i) (hsub' : ∀ i < n, ∃ j < n, slots j = slots' i) :
    find slots' pos' = find slots pos := by
  funext k
  apply Option.ext
  intro a
  rw [find_eq_some id h, find_eq_some id h']
  constructor
  · rintro ⟨i, hi, rfl, e⟩
    obtain ⟨j, hj, ej⟩ := hsub' i hi
    exact ⟨j, hj, ej, e⟩
  · rintro ⟨i, hi, rfl, e⟩
    obtain ⟨j, hj, ej⟩ := hsub i hi
    exact ⟨j, hj, ej, e⟩

end Find

end MinHeap

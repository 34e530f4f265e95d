import UbServer.Queue.Order

/-!
# One call of `heapify`

What a single call does from any slot whose two child subtrees are heap-ordered. The slots it
touches are those of the subtree in use (`subtreeInUse`): the records are moved about within it,
and the index entries are moved along (`heapify_permutedOn`, `heapify_indexConsistent`). The index
array is only asked to give the slot of every stored descriptor, not to be `-1` elsewhere.
-/

namespace UbServer

open MinHeap QueueConnectionsType

namespace QueueConnectionsType

variable (q : QueueConnectionsType)

/-- The slots of the subtree rooted at `index` that hold a record. -/
def subtreeInUse (index : ℕ) : Set ℕ := { j | InSubtree index j ∧ j < q.currentSize }

/-- The subtree rooted at `index` is heap-ordered: every slot of it but the root is at or after its
parent. -/
def SubtreeOrdered (index : ℕ) : Prop :=
  ∀ j < q.currentSize, InSubtree index j → j ≠ index → q.time (parentHeap j) ≤ q.time j

/-- The index array gives the slot of every stored descriptor. -/
def IndexConsistent : Prop := ∀ j < q.currentSize, q.indexQueue (q.fd j) = some j

/-- No two slots hold a record of the same descriptor. -/
def DistinctFds : Prop := ∀ j < q.currentSize, ∀ k < q.currentSize, q.fd j = q.fd k → j = k

variable {q} {index i j fd : ℕ}

theorem subtreeOrdered_iff :
    q.SubtreeOrdered index ↔ Ordered (subtreeBelow index) q.time q.currentSize := by
  constructor
  · intro h j hj hjR
    exact h j hj hjR.1 hjR.2
  · intro h j hj hjs hne
    exact h j hj ⟨hjs, hne⟩

theorem subtreeOrdered_of_le (h : ∀ j < q.currentSize, index ≤ parentHeap j →
    q.time (parentHeap j) ≤ q.time j) : q.SubtreeOrdered index := by
  intro j hj hjs hne
  exact h j hj (hjs.parent hne).le

theorem IndexConsistent.locates (h : q.IndexConsistent) :
    Locates q.fd q.indexQueue q.currentSize := h

theorem IndexConsistent.distinctFds (h : q.IndexConsistent) : q.DistinctFds :=
  fun _ hj _ hk e => h.locates.inj hj hk e

theorem IndexConsistent.fd_ne (h : q.IndexConsistent) (hfd : q.indexQueue fd = none) :
    ∀ j < q.currentSize, q.fd j ≠ fd := by
  rintro j hj rfl
  rw [h j hj] at hfd
  cases hfd

end QueueConnectionsType

/-! ### One turn -/

section Turn

variable {q : QueueConnectionsType} {index i j fd : ℕ}

theorem swapRepaired_fd (q : QueueConnectionsType) (i j : ℕ) :
    (q.swapRepaired i j).fd = swapAt q.fd i j :=
  comp_swapAt QueueConnectionElementType.clientFd q.connections i j

theorem swapRepaired_indexQueue (q : QueueConnectionsType) (i j : ℕ) :
    (q.swapRepaired i j).indexQueue =
      Function.update (Function.update q.indexQueue (q.fd j) (some i)) (q.fd i) (some j) := by
  simp [swapRepaired, setIndex, swapConnectionElementHeap, QueueConnectionsType.fd]

theorem swapRepaired_indexConsistent (h : q.IndexConsistent) (hi : i < q.currentSize)
    (hj : j < q.currentSize) : (q.swapRepaired i j).IndexConsistent := by
  have hsw := h.locates.swap hi hj
  rw [← swapRepaired_fd, ← swapRepaired_indexQueue] at hsw
  exact hsw

theorem swapRepaired_indexQueue_of_ne (hi : q.fd i ≠ fd) (hj : q.fd j ≠ fd) :
    (q.swapRepaired i j).indexQueue fd = q.indexQueue fd := by
  rw [swapRepaired_indexQueue, Function.update_of_ne hi.symm, Function.update_of_ne hj.symm]

theorem swapRepaired_fd_ne (hi : i < q.currentSize) (hj : j < q.currentSize)
    (h : ∀ k < q.currentSize, q.fd k ≠ fd) :
    ∀ k < (q.swapRepaired i j).currentSize, (q.swapRepaired i j).fd k ≠ fd := by
  intro k hk
  rw [swapRepaired_fd]
  by_cases hki : k = i
  · subst hki
    rw [swapAt_left]
    exact h j hj
  by_cases hkj : k = j
  · subst hkj
    rw [swapAt_right]
    exact h i hi
  · rw [swapAt_of_ne _ hki hkj]
    exact h k hk

theorem smallest_inSubtree (hne : q.smallest index ≠ index) :
    InSubtree index (q.smallest index) := by
  rcases smallest_spec q index with ⟨he, -⟩ | ⟨hc, -⟩
  · exact absurd he hne
  · exact InSubtree.of_isChild hc

end Turn

/-! ### The whole call -/

section Call

variable {q : QueueConnectionsType} {index fd : ℕ}

theorem heapify_permutedOn (q : QueueConnectionsType) (index : ℕ) :
    PermutedOn (q.subtreeInUse index) q.connections (heapify q index).connections := by
  induction q, index using heapify.induct with
  | case1 q index smallest hne ih =>
    rw [heapify, if_pos hne]
    have hb := q.smallest_bounds hne
    have hsub := smallest_inSubtree hne
    have hturn : PermutedOn (q.subtreeInUse index) q.connections
        (q.swapRepaired index smallest).connections :=
      PermutedOn.swapAt q.connections ⟨InSubtree.root, hb.1.trans hb.2⟩ ⟨hsub, hb.2⟩
    -- the rest of the call stays in the subtree of the child
    exact hturn.trans (ih.mono fun _ hj => ⟨hsub.trans hj.1, hj.2⟩)
  | case2 q index smallest hne =>
    rw [heapify, if_neg hne]
    exact PermutedOn.refl _ _

theorem heapify_indexConsistent (q : QueueConnectionsType) (index : ℕ) (h : q.IndexConsistent) :
    (heapify q index).IndexConsistent := by
  induction q, index using heapify.induct with
  | case1 q index smallest hne ih =>
    rw [heapify, if_pos hne]
    have hb := q.smallest_bounds hne
    exact ih (swapRepaired_indexConsistent h (hb.1.trans hb.2) hb.2)
  | case2 q index smallest hne =>
    rw [heapify, if_neg hne]
    exact h

theorem heapify_indexQueue_of_ne (q : QueueConnectionsType) (index : ℕ)
    (h : ∀ j < q.currentSize, q.fd j ≠ fd) :
    (heapify q index).indexQueue fd = q.indexQueue fd := by
  induction q, index using heapify.induct with
  | case1 q index smallest hne ih =>
    rw [heapify, if_pos hne]
    have hb := q.smallest_bounds hne
    have hi := hb.1.trans hb.2
    rw [ih (swapRepaired_fd_ne hi hb.2 h)]
    exact swapRepaired_indexQueue_of_ne (h index hi) (h _ hb.2)
  | case2 q index smallest hne =>
    rw [heapify, if_neg hne]

theorem heapify_subtreeOrdered (h : ∀ c, IsChild c index → q.SubtreeOrdered c) :
    (heapify q index).SubtreeOrdered index := by
  refine subtreeOrdered_iff.mpr (heapify_ordered (fun _ hi => pos_of_mem_subtreeBelow hi) q index
    ?_ (DownOrder.of_children fun c hc => subtreeOrdered_iff.mp (h c hc)))
  rintro i (rfl | hi) d hd
  · exact InSubtree.root.mem_subtreeBelow hd
  · exact hi.1.mem_subtreeBelow hd

/-- The root of the subtree gets a record that no record of the subtree is before. -/
theorem heapify_root_least (h : ∀ c, IsChild c index → q.SubtreeOrdered c)
    (hin : index < q.currentSize) :
    ∃ i ∈ q.subtreeInUse index, (heapify q index).connections index = q.connections i ∧
      ∀ j ∈ q.subtreeInUse index, q.time i ≤ q.time j := by
  have hperm := heapify_permutedOn q index
  have hsize := (heapify_rearranges q index).size
  obtain ⟨i, hi, e⟩ := hperm.exists_from (show index ∈ q.subtreeInUse index from
    ⟨InSubtree.root, hin⟩)
  refine ⟨i, hi, e, fun j hj => ?_⟩
  obtain ⟨k, hk, ek⟩ := hperm.exists_to hj
  have hle := (subtreeOrdered_iff.mp (heapify_subtreeOrdered h)).subtree_root_le hk.1
    (hsize.symm ▸ hk.2)
  unfold QueueConnectionsType.time at hle ⊢
  rw [e, ek] at hle
  exact hle

/-- **One call of `heapify`.** From a slot whose child subtrees are heap-ordered, the call orders
the whole subtree, moves records about within it and nowhere else, puts an oldest of them at the
root, and moves the index entries along. That the stored descriptors are distinct is part of
`IndexConsistent`. -/
theorem heapify_spec (hidx : q.IndexConsistent) (hin : index < q.currentSize)
    (hleft : q.SubtreeOrdered (leftChildHeap index))
    (hright : q.SubtreeOrdered (rightChildHeap index)) :
    (heapify q index).SubtreeOrdered index ∧
    (heapify q index).currentSize = q.currentSize ∧ (heapify q index).capacity = q.capacity ∧
    (∃ σ : Equiv.Perm ℕ, (∀ j ∉ q.subtreeInUse index, σ j = j) ∧
      ∀ j, (heapify q index).connections j = q.connections (σ j)) ∧
    elements (heapify q index).connections q.currentSize =
      elements q.connections q.currentSize ∧
    (heapify q index).DistinctFds ∧
    (∃ i ∈ q.subtreeInUse index, (heapify q index).connections index = q.connections i ∧
      ∀ j ∈ q.subtreeInUse index, q.time i ≤ q.time j) ∧
    (∀ j < q.currentSize, (heapify q index).indexQueue ((heapify q index).fd j) = some j) ∧
    (∀ fd, q.indexQueue fd = none → (heapify q index).indexQueue fd = none) := by
  have hchild : ∀ c, IsChild c index → q.SubtreeOrdered c := by
    intro c hc
    rcases isChild_heap_iff.mp hc with rfl | rfl
    · exact hleft
    · exact hright
  have hre := heapify_rearranges q index
  have hperm := heapify_permutedOn q index
  have hidx' := heapify_indexConsistent q index hidx
  refine ⟨heapify_subtreeOrdered hchild, hre.size, hre.capacity, ?_,
    hperm.elements_eq fun _ hj => hj.2, hidx'.distinctFds, heapify_root_least hchild hin, ?_, ?_⟩
  · obtain ⟨σ, hσ, e⟩ := hperm
    exact ⟨σ, hσ, fun j => congrFun e j⟩
  · intro j hj
    exact hidx' j (hre.size.symm ▸ hj)
  · intro fd hfd
    rw [heapify_indexQueue_of_ne q index (hidx.fd_ne hfd)]
    exact hfd

end Call

/-- Five clients, of which the one at the root is stamped latest: its two child subtrees are
heap-ordered, the left one of three records and the right one of one. -/
def lateRoot : QueueConnectionsType :=
  [(4, 9), (5, 2), (6, 3), (7, 5), (8, 2)].foldl
    (fun q e => { (q.setConnection q.currentSize (freshConnection e.1 e.2 .zeroed)).setIndex e.1
      (some q.currentSize) with currentSize := q.currentSize + 1 }) createQueueConnections

/-- The late record sinks two levels and its descriptor is found there. -/
theorem heapify_lateRoot :
    (heapify lateRoot 0).SubtreeOrdered 0 ∧
      (heapify lateRoot 0).indexQueue ((heapify lateRoot 0).fd 4) = some 4 := by
  have hidx : lateRoot.IndexConsistent := by
    unfold IndexConsistent
    decide
  have h := heapify_spec hidx (show 0 < lateRoot.currentSize by decide)
    (subtreeOrdered_of_le (by decide)) (subtreeOrdered_of_le (by decide))
  exact ⟨h.1, h.2.2.2.2.2.2.2.1 4 (by decide)⟩

end UbServer

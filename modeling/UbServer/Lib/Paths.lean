import Mathlib.Data.List.DropRight
import Mathlib.Tactic.Common

/-!
# Paths, resolved by their text

A path names a place: from the root, or from the working directory or one of its ancestors, a chain
of names leads down to it. Nothing here looks at a file system.

* `Place.run`: where a list of segments leads from a place.
* `net`: what a list of segments comes to, a number of climbs and then names.
* `Place.within_run_iff`: when segments lead from a place to one within it.
* `resolve`: the place that a path names, `.` and `..` resolved.
-/

namespace Paths

section Places

variable {α : Type*}

inductive Segment (α : Type*) where
  | up
  | name (a : α)
  deriving DecidableEq, Repr

/-- Where a chain of names starts: the root, or so many directories above the working directory. -/
inductive Base where
  | root
  | working (climbs : ℕ)
  deriving DecidableEq, Repr

/-- So many directories above the base. The root is its own parent. -/
def Base.climb : Base → ℕ → Base
  | .root, _ => .root
  | .working climbs, n => .working (climbs + n)

/-- A place. The innermost name comes first. -/
structure Place (α : Type*) where
  base : Base
  names : List α
  deriving DecidableEq, Repr

/-- What a list of segments comes to: climbs, and then names, the innermost first. -/
structure Detour (α : Type*) where
  climbs : ℕ
  names : List α
  deriving DecidableEq, Repr

/-- One segment further. -/
def Place.step (p : Place α) : Segment α → Place α
  | .name a => { p with names := a :: p.names }
  | .up =>
    match p.names with
    | [] => { p with base := p.base.climb 1 }
    | _ :: names => { p with names := names }

def Place.run (p : Place α) (segments : List (Segment α)) : Place α := segments.foldl Place.step p

/-- A place is within another if the names to it begin with the names to the other. -/
def Place.Within (q p : Place α) : Prop := q.base = p.base ∧ p.names <:+ q.names

def Detour.step (d : Detour α) : Segment α → Detour α
  | .name a => { d with names := a :: d.names }
  | .up =>
    match d.names with
    | [] => { d with climbs := d.climbs + 1 }
    | _ :: names => { d with names := names }

def net (segments : List (Segment α)) : Detour α := segments.foldl Detour.step ⟨0, []⟩

/-- Where a detour leads from a place. -/
def Place.follow (p : Place α) (d : Detour α) : Place α :=
  ⟨p.base.climb (d.climbs - p.names.length), d.names ++ p.names.drop d.climbs⟩

/-- The names that the climbs take away from a place are named again, and no climb leads out of the
base. -/
def Place.Restored (p : Place α) (d : Detour α) : Prop :=
  (p.base = .root ∨ d.climbs ≤ p.names.length) ∧ p.names.take d.climbs <:+ d.names

instance [DecidableEq α] (q p : Place α) : Decidable (q.Within p) :=
  inferInstanceAs (Decidable (_ ∧ _))

instance [DecidableEq α] (p : Place α) (d : Detour α) : Decidable (p.Restored d) :=
  inferInstanceAs (Decidable (_ ∧ _))

@[simp] theorem Place.run_append (p : Place α) (s t : List (Segment α)) :
    p.run (s ++ t) = (p.run s).run t := List.foldl_append

@[simp] theorem Place.run_cons (p : Place α) (s : Segment α) (t : List (Segment α)) :
    p.run (s :: t) = (p.step s).run t := rfl

@[simp] theorem Base.climb_zero (b : Base) : b.climb 0 = b := by cases b <;> rfl

theorem Base.climb_climb (b : Base) (m n : ℕ) : (b.climb m).climb n = b.climb (m + n) := by
  cases b with
  | root => rfl
  | working climbs => simp only [climb, Nat.add_assoc]

theorem Base.climb_eq_self {b : Base} {n : ℕ} : b.climb n = b ↔ b = .root ∨ n = 0 := by
  cases b with
  | root => simp [climb]
  | working climbs => simp [climb]

theorem Place.step_follow (p : Place α) (d : Detour α) (s : Segment α) :
    (p.follow d).step s = p.follow (d.step s) := by
  obtain ⟨climbs, names⟩ := d
  cases s with
  | name a => rfl
  | up =>
    cases names with
    | cons b names => rfl
    | nil =>
      simp only [follow, Detour.step, List.nil_append]
      by_cases hlt : climbs < p.names.length
      · have hbase : climbs - p.names.length = climbs + 1 - p.names.length := by omega
        rw [List.drop_eq_getElem_cons hlt, hbase]
        rfl
      · have hnil : p.names.drop climbs = [] := List.drop_eq_nil_of_le (by omega)
        have hnil' : p.names.drop (climbs + 1) = [] := List.drop_eq_nil_of_le (by omega)
        have hbase : climbs - p.names.length + 1 = climbs + 1 - p.names.length := by omega
        simp only [step, hnil, hnil', Base.climb_climb, hbase]

/-- **Segments lead where their net detour leads.** -/
theorem Place.run_eq_follow (p : Place α) (segments : List (Segment α)) :
    p.run segments = p.follow (net segments) := by
  have key : ∀ (segments : List (Segment α)) (d : Detour α),
      (p.follow d).run segments = p.follow (segments.foldl Detour.step d) := by
    intro segments
    induction segments with
    | nil => intro d; rfl
    | cons s segments ih =>
      intro d
      rw [run_cons, step_follow, ih, List.foldl_cons]
  have hfollow : p.follow ⟨0, []⟩ = p := by simp [follow]
  have := key segments ⟨0, []⟩
  rwa [hfollow] at this

/-- **A detour stays within a place** exactly when it restores what it climbs out of. -/
theorem Place.within_run_iff (p : Place α) (segments : List (Segment α)) :
    (p.run segments).Within p ↔ p.Restored (net segments) := by
  rw [run_eq_follow]
  unfold Within Restored follow
  simp only [Base.climb_eq_self, Nat.sub_eq_zero_iff_le]
  refine and_congr_right fun _ => ?_
  have hsplit : p.names.take (net segments).climbs ++ p.names.drop (net segments).climbs <:+
      (net segments).names ++ p.names.drop (net segments).climbs ↔
        p.names.take (net segments).climbs <:+ (net segments).names :=
    List.suffix_append_self_iff
  rwa [List.take_append_drop] at hsplit

theorem climbs_net_of_not_mem {segments : List (Segment α)} (h : .up ∉ segments) :
    (net segments).climbs = 0 := by
  have key : ∀ (segments : List (Segment α)) (d : Detour α), .up ∉ segments →
      (segments.foldl Detour.step d).climbs = d.climbs := by
    intro segments
    induction segments with
    | nil => intro d _; rfl
    | cons s segments ih =>
      intro d hs
      rw [List.mem_cons, not_or] at hs
      rw [List.foldl_cons, ih _ hs.2]
      cases s with
      | up => exact absurd rfl hs.1
      | name a => rfl
  exact key segments _ h

theorem Place.restored_of_climbs_eq_zero {p : Place α} {d : Detour α} (h : d.climbs = 0) :
    p.Restored d := by
  refine ⟨Or.inr (by omega), ?_⟩
  rw [h, List.take_zero]
  exact List.nil_suffix

end Places

/-! ### The text of a path -/

def slash : UInt8 := 47

/-- The segment between two slashes; `.` and the empty one go nowhere. -/
def segment (s : List UInt8) : Option (Segment (List UInt8)) :=
  if s = [] ∨ s = [46] then none
  else if s = [46, 46] then some .up
  else some (.name s)

def segments (s : List UInt8) : List (Segment (List UInt8)) := (s.splitOn slash).filterMap segment

/-- The part up to the last slash. -/
def parentPart (s : List UInt8) : List UInt8 := s.rdropWhile (· ≠ slash)

/-- The part after the last slash. -/
def lastPart (s : List UInt8) : List UInt8 := s.rtakeWhile (· ≠ slash)

def base (s : List UInt8) : Base := if s.head? = some slash then .root else .working 0

/-- The place that a path names. -/
def resolve (s : List UInt8) : Place (List UInt8) := Place.run ⟨base s, []⟩ (segments s)

theorem segments_append_slash (s t : List UInt8) :
    segments (s ++ slash :: t) = segments s ++ segments t := by
  unfold segments
  rw [List.splitOn_append_cons_self, List.filterMap_append]

@[simp] theorem segments_nil : segments [] = [] := rfl

theorem segments_of_not_mem {s : List UInt8} (h : slash ∉ s) : segments s = (segment s).toList := by
  unfold segments
  rw [List.splitOn_eq_singleton h]
  cases hs : segment s <;> simp [hs]

theorem parentPart_append_lastPart (s : List UInt8) : parentPart s ++ lastPart s = s :=
  List.rdropWhile_append_rtakeWhile ..

theorem slash_not_mem_lastPart (s : List UInt8) : slash ∉ lastPart s := by
  intro h
  simpa using List.mem_rtakeWhile_imp h

/-- What stands before the last slash does not depend on what follows. -/
theorem segments_parentPart_append (s t : List UInt8) :
    segments (parentPart s ++ t) = segments (parentPart s) ++ segments t := by
  rcases List.eq_nil_or_concat (parentPart s) with hnil | ⟨u, a, hua⟩
  · rw [hnil]
    rfl
  · rw [List.concat_eq_append] at hua
    have hlast : a = slash := by
      have hne : parentPart s ≠ [] := by simp [hua]
      have hnot : ¬ decide ((parentPart s).getLast hne ≠ slash) = true :=
        List.rdropWhile_last_not _ s hne
      simp only [hua, List.getLast_append_singleton] at hnot
      simpa using hnot
    rw [hua, hlast, List.append_assoc, List.singleton_append,
      segments_append_slash, segments_append_slash, segments_nil, List.append_nil]

end Paths

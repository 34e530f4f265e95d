import Mathlib.Logic.Function.Basic
import Mathlib.Data.List.Infix
import Mathlib.Tactic.Common

/-!
# Trees of directories and files

A location is the list of names that leads to it, the innermost first; the root is `[]`. A tree says
what is at each location. There are no links, so that a location has one parent.

* `DirTree`: entries stand in directories, and the root and the working directory are directories.
* `DirTree.resolve`: where components lead; each one needs a directory to start from.
* `DirTree.make`: `mkdir` of what components lead to.
* `DirTree.ensure`: `mkdir` of one thing after the other, where what is there already is no error.
* `Grows`: how a tree changes in between.
-/

namespace FileTree

inductive Kind where
  | directory | other
  deriving DecidableEq, Repr

/-- A component of a path: `.`, `..`, or a name. -/
inductive Component (Name : Type*) where
  | here
  | up
  | name (name : Name)
  deriving DecidableEq, Repr

/-- A tree of files, with the working directory of a process. -/
structure DirTree (Name : Type*) where
  entry : List Name → Option Kind
  cwd : List Name
  root_directory : entry [] = some .directory
  cwd_directory : entry cwd = some .directory
  closed : ∀ name location, entry (name :: location) ≠ none → entry location = some .directory

/-! ### Where components lead -/

section Locate

variable {Name : Type*}

/-- The location that a component leads to from a directory. The root is its own parent. -/
def go (location : List Name) : Component Name → List Name
  | .here => location
  | .up => location.tail
  | .name name => name :: location

/-- The location that components lead to, by their text alone. -/
def locate (start : List Name) (components : List (Component Name)) : List Name :=
  components.foldl go start

theorem locate_append (start : List Name) (cs ds : List (Component Name)) :
    locate start (cs ++ ds) = locate (locate start cs) ds := List.foldl_append

end Locate

namespace DirTree

variable {Name : Type*} {tree tree' : DirTree Name} {start location : List Name}
  {cs ds : List (Component Name)}

/-- The location that components lead to: each but the last is to be a directory that is there. -/
def resolve (tree : DirTree Name) (start : List Name) : List (Component Name) → Option (List Name)
  | [] => some start
  | c :: cs => if tree.entry start = some .directory then tree.resolve (go start c) cs else none

/-- The components lead through directories. -/
def Passes (tree : DirTree Name) (start : List Name) (cs : List (Component Name)) : Prop :=
  ∀ ds, ds <+: cs → ds ≠ cs → tree.entry (locate start ds) = some .directory

theorem passes_cons {c : Component Name} :
    tree.Passes start (c :: cs) ↔
      tree.entry start = some .directory ∧ tree.Passes (go start c) cs := by
  constructor
  · intro h
    refine ⟨h [] List.nil_prefix (List.cons_ne_nil _ _).symm, fun ds hds hne => ?_⟩
    exact h (c :: ds) (List.cons_prefix_cons.mpr ⟨rfl, hds⟩) fun e => hne (List.cons.inj e).2
  · rintro ⟨hstart, h⟩ ds hds hne
    cases ds with
    | nil => exact hstart
    | cons d ds =>
      obtain ⟨rfl, hinit⟩ := List.cons_prefix_cons.mp hds
      exact h ds hinit fun e => hne (congrArg _ e)

theorem resolve_eq_some :
    tree.resolve start cs = some location ↔ location = locate start cs ∧ tree.Passes start cs := by
  induction cs generalizing start with
  | nil =>
    have hpasses : tree.Passes start [] := fun ds hds hne => absurd (List.prefix_nil.mp hds) hne
    rw [and_iff_left hpasses]
    exact ⟨fun h => (Option.some.inj h).symm, fun h => congrArg some h.symm⟩
  | cons c cs ih =>
    rw [passes_cons]
    unfold resolve
    split
    · rename_i hstart
      rw [ih, and_iff_right hstart]
      rfl
    · rename_i hstart
      exact iff_of_false (by simp) fun h => hstart h.2.1

theorem directory_tail {l : List Name} (h : tree.entry l = some .directory) :
    tree.entry l.tail = some .directory := by
  cases l with
  | nil => exact h
  | cons name l => exact tree.closed name l (by rw [h]; exact Option.some_ne_none _)

/-- Something that is missing although the components lead there is a new name in a directory. -/
theorem missing_parent (hpasses : tree.Passes start cs) (hstart : tree.entry start = some .directory)
    (hnone : tree.entry (locate start cs) = none) :
    locate start cs ≠ [] ∧ tree.entry (locate start cs).tail = some .directory := by
  rcases List.eq_nil_or_concat cs with rfl | ⟨ds, c, rfl⟩
  · rw [show locate start [] = start from rfl, hstart] at hnone
    cases hnone
  · have hds : tree.entry (locate start ds) = some .directory :=
      hpasses ds (List.prefix_concat ..) (by simp)
    rw [List.concat_eq_append, locate_append] at hnone ⊢
    cases c with
    | here =>
      rw [show locate (locate start ds) [.here] = locate start ds from rfl, hds] at hnone
      cases hnone
    | up =>
      rw [show locate (locate start ds) [.up] = (locate start ds).tail from rfl,
        directory_tail hds] at hnone
      cases hnone
    | name name => exact ⟨List.cons_ne_nil _ _, hds⟩

theorem Passes.of_prefix (h : tree.Passes start cs) (hds : ds <+: cs) : tree.Passes start ds := by
  intro es hes hne
  refine h es (hes.trans hds) fun e => hne ?_
  subst e
  exact hes.eq_of_length_le hds.length_le

/-- The components lead to something that is there. -/
def Found (tree : DirTree Name) (start : List Name) (cs : List (Component Name)) : Prop :=
  tree.Passes start cs ∧ tree.entry (locate start cs) ≠ none

/-! ### Making a directory -/

section Make

variable [DecidableEq Name]

/-- The tree with a new directory, if there is room for it. -/
def insert (tree : DirTree Name) (location : List Name) (kind : Kind) : DirTree Name :=
  if h : location ≠ [] ∧ tree.entry location = none ∧
      tree.entry location.tail = some .directory then
    { entry := Function.update tree.entry location (some kind)
      cwd := tree.cwd
      root_directory := by
        rw [Function.update_of_ne h.1.symm]
        exact tree.root_directory
      cwd_directory := by
        rw [Function.update_of_ne]
        · exact tree.cwd_directory
        · intro e
          have hcwd := tree.cwd_directory
          rw [e, h.2.1] at hcwd
          cases hcwd
      closed := by
        intro name parent hentry
        have hparent : tree.entry parent = some .directory := by
          by_cases e : name :: parent = location
          · subst e
            exact h.2.2
          · rw [Function.update_of_ne e] at hentry
            exact tree.closed name parent hentry
        rw [Function.update_of_ne]
        · exact hparent
        · rintro rfl
          rw [h.2.1] at hparent
          cases hparent }
  else tree

theorem entry_insert {kind : Kind} (hroot : location ≠ []) (hnone : tree.entry location = none)
    (hparent : tree.entry location.tail = some .directory) :
    (tree.insert location kind).entry = Function.update tree.entry location (some kind) := by
  unfold insert
  rw [dif_pos ⟨hroot, hnone, hparent⟩]

theorem cwd_insert (tree : DirTree Name) (location : List Name) (kind : Kind) :
    (tree.insert location kind).cwd = tree.cwd := by
  unfold insert
  split <;> rfl

/-- Why `mkdir` fails: something is there, a component does not lead through a directory, or the
system refuses (permissions, space). -/
inductive MakeError where
  | eexist | unreachable | refused
  deriving DecidableEq, Repr

/-- `mkdir`. What the system lets one make is `mayMake`. -/
def make (mayMake : List Name → Bool) (tree : DirTree Name) (start : List Name)
    (cs : List (Component Name)) : Except MakeError (DirTree Name) :=
  match tree.resolve start cs with
  | none => .error .unreachable
  | some location =>
    if tree.entry location = none then
      if mayMake location then .ok (tree.insert location .directory) else .error .refused
    else .error .eexist

/-- `mkdir` for one thing after the other. The flag is false when a call fails although nothing was
there. -/
def ensure (mayMake : List Name → Bool) (start : List Name) (tree : DirTree Name) :
    List (List (Component Name)) → Bool × DirTree Name
  | [] => (true, tree)
  | cs :: css =>
    match tree.make mayMake start cs with
    | .ok tree' => tree'.ensure mayMake start css
    | .error .eexist => tree.ensure mayMake start css
    | .error _ => (false, tree)

end Make

end DirTree

/-- A tree that has grown: what was there is there, what is new is a directory at a location of
which `P` holds. -/
structure Grows {Name : Type*} (P : List Name → Prop) (tree tree' : DirTree Name) : Prop where
  cwd : tree'.cwd = tree.cwd
  old : ∀ l, tree.entry l ≠ none → tree'.entry l = tree.entry l
  new : ∀ l, tree.entry l = none → tree'.entry l = none ∨ tree'.entry l = some .directory ∧ P l

namespace Grows

variable {Name : Type*} {P Q : List Name → Prop} {tree tree' tree'' : DirTree Name} {start : List Name}
  {cs : List (Component Name)}

theorem refl (P : List Name → Prop) (tree : DirTree Name) : Grows P tree tree :=
  ⟨rfl, fun _ _ => rfl, fun _ h => Or.inl h⟩

theorem mono (h : Grows P tree tree') (hPQ : ∀ l, P l → Q l) : Grows Q tree tree' :=
  ⟨h.cwd, h.old, fun l hl => (h.new l hl).imp_right fun h => ⟨h.1, hPQ l h.2⟩⟩

theorem trans (h : Grows P tree tree') (h' : Grows P tree' tree'') : Grows P tree tree'' := by
  refine ⟨h'.cwd.trans h.cwd, fun l hl => ?_, fun l hl => ?_⟩
  · have hold := h.old l hl
    rw [h'.old l (hold ▸ hl), hold]
  · rcases h.new l hl with hl' | ⟨hl', hP⟩
    · exact h'.new l hl'
    · right
      rw [h'.old l (by rw [hl']; exact Option.some_ne_none _)]
      exact ⟨hl', hP⟩

theorem directory (h : Grows P tree tree') {l : List Name} (hl : tree.entry l = some .directory) :
    tree'.entry l = some .directory := by
  rw [h.old l (by rw [hl]; exact Option.some_ne_none _), hl]

theorem found (h : Grows P tree tree') (hfound : tree.Found start cs) : tree'.Found start cs := by
  refine ⟨fun ds hds hne => h.directory (hfound.1 ds hds hne), ?_⟩
  rw [h.old _ hfound.2]
  exact hfound.2

theorem other (h : Grows P tree tree') {l : List Name} (hl : tree'.entry l = some .other) :
    tree.entry l = some .other := by
  by_cases hnone : tree.entry l = none
  · rcases h.new l hnone with hl' | ⟨hl', -⟩
    · rw [hl'] at hl
      cases hl
    · rw [hl'] at hl
      cases hl
  · rw [← h.old l hnone, hl]

end Grows

namespace DirTree

variable {Name : Type*} [DecidableEq Name] {mayMake : List Name → Bool} {tree tree' : DirTree Name}
  {start : List Name} {cs ds : List (Component Name)} {css : List (List (Component Name))}

theorem make_cases (mayMake : List Name → Bool) (cs : List (Component Name))
    (hstart : tree.entry start = some .directory) :
    (∃ tree', tree.make mayMake start cs = .ok tree' ∧ tree.Passes start cs ∧
      tree.entry (locate start cs) = none ∧ mayMake (locate start cs) = true ∧
      tree'.entry = Function.update tree.entry (locate start cs) (some .directory) ∧
      tree'.cwd = tree.cwd) ∨
    (tree.make mayMake start cs = .error .eexist ∧ tree.Found start cs) ∨
    (∃ e, e ≠ MakeError.eexist ∧ tree.make mayMake start cs = .error e ∧
      (tree.Passes start cs →
        tree.entry (locate start cs) = none ∧ mayMake (locate start cs) = false)) := by
  unfold make
  cases hresolve : tree.resolve start cs with
  | none =>
    refine Or.inr (Or.inr ⟨_, by decide, rfl, fun hpasses => ?_⟩)
    rw [resolve_eq_some.mpr ⟨rfl, hpasses⟩] at hresolve
    cases hresolve
  | some location =>
    obtain ⟨rfl, hpasses⟩ := resolve_eq_some.mp hresolve
    by_cases hnone : tree.entry (locate start cs) = none
    · by_cases hmay : mayMake (locate start cs) = true
      · obtain ⟨hroot, hparent⟩ := missing_parent hpasses hstart hnone
        refine Or.inl ⟨_, ?_, hpasses, hnone, hmay, entry_insert hroot hnone hparent,
          cwd_insert _ _ _⟩
        simp only [if_pos hnone, if_pos hmay]
      · refine Or.inr (Or.inr ⟨.refused, by decide, ?_, fun _ => ⟨hnone, by simpa using hmay⟩⟩)
        simp only [if_pos hnone, if_neg hmay]
    · refine Or.inr (Or.inl ⟨?_, hpasses, hnone⟩)
      simp only [if_neg hnone]

theorem make_cwd (h : tree.make mayMake start cs = .ok tree') : tree'.cwd = tree.cwd := by
  unfold make at h
  split at h
  · cases h
  · split at h
    · split at h
      · rw [← Except.ok.inj h]
        exact cwd_insert _ _ _
      · cases h
    · cases h

theorem grows_update {l : List Name} (hnone : tree.entry l = none)
    (hentry : tree'.entry = Function.update tree.entry l (some .directory))
    (hcwd : tree'.cwd = tree.cwd) : Grows (· = l) tree tree' := by
  refine ⟨hcwd, fun k hk => ?_, fun k hk => ?_⟩
  · rw [hentry, Function.update_of_ne]
    rintro rfl
    exact hk hnone
  · rw [hentry]
    by_cases e : k = l
    · subst e
      rw [Function.update_self]
      exact Or.inr ⟨rfl, rfl⟩
    · rw [Function.update_of_ne e]
      exact Or.inl hk

/-- The calls one after the other: how the tree grows whatever the outcome, and that everything asked
for is there if all went well. -/
theorem ensure_spec (mayMake : List Name → Bool) (css : List (List (Component Name)))
    (hstart : tree.entry start = some .directory) :
    Grows (fun l => mayMake l = true ∧ ∃ cs ∈ css, l = locate start cs) tree
        (tree.ensure mayMake start css).2 ∧
      ((tree.ensure mayMake start css).1 = true →
        ∀ cs ∈ css, (tree.ensure mayMake start css).2.Found start cs) := by
  induction css generalizing tree with
  | nil => exact ⟨Grows.refl _ _, fun _ _ h => absurd h List.not_mem_nil⟩
  | cons cs css ih =>
    have htail : ∀ l, (mayMake l = true ∧ ∃ ds ∈ css, l = locate start ds) →
        mayMake l = true ∧ ∃ ds ∈ cs :: css, l = locate start ds :=
      fun l ⟨hmay, ds, hds, e⟩ => ⟨hmay, ds, List.mem_cons_of_mem _ hds, e⟩
    unfold ensure
    rcases make_cases mayMake cs hstart with ⟨tree', hmake, hpasses, hnone, hmay, hentry, hcwd⟩ |
      ⟨hmake, hfound⟩ | ⟨e, hne, hmake, -⟩
    · have hgrows := grows_update hnone hentry hcwd
      obtain ⟨hgrows', hall⟩ := ih (hgrows.directory hstart)
      have hfound : tree'.Found start cs := by
        refine ⟨fun ds hds hne => hgrows.directory (hpasses ds hds hne), ?_⟩
        rw [hentry, Function.update_self]
        exact Option.some_ne_none _
      simp only [hmake]
      have hone : ∀ l, l = locate start cs → mayMake l = true ∧ ∃ ds ∈ cs :: css, l = locate start ds :=
        fun l hl => ⟨hl ▸ hmay, cs, List.mem_cons_self, hl⟩
      refine ⟨(hgrows.mono hone).trans (hgrows'.mono htail),
        fun hok => List.forall_mem_cons.mpr ⟨hgrows'.found hfound, hall hok⟩⟩
    · obtain ⟨hgrows', hall⟩ := ih hstart
      simp only [hmake]
      exact ⟨hgrows'.mono htail,
        fun hok => List.forall_mem_cons.mpr ⟨hgrows'.found hfound, hall hok⟩⟩
    · simp only [hmake]
      cases e with
      | eexist => exact absurd rfl hne
      | unreachable => exact ⟨Grows.refl _ _, fun h => absurd h Bool.false_ne_true⟩
      | refused => exact ⟨Grows.refl _ _, fun h => absurd h Bool.false_ne_true⟩

theorem make_of_found (mayMake : List Name → Bool) (h : tree.Found start cs) :
    tree.make mayMake start cs = .error .eexist := by
  unfold make
  rw [resolve_eq_some.mpr ⟨rfl, h.1⟩]
  simp only [if_neg h.2]

theorem ensure_of_found (mayMake : List Name → Bool) (h : ∀ cs ∈ css, tree.Found start cs) :
    tree.ensure mayMake start css = (true, tree) := by
  induction css with
  | nil => rfl
  | cons cs css ih =>
    obtain ⟨hcs, hcss⟩ := List.forall_mem_cons.mp h
    unfold ensure
    simp only [make_of_found mayMake hcs]
    exact ih hcss

/-- What is asked for can be made in turn: what leads to each thing is there or is asked for before,
and what is missing may be made. -/
structure Ready (mayMake : List Name → Bool) (start : List Name) (tree : DirTree Name)
    (css : List (List (Component Name))) : Prop where
  leads : ∀ before cs after, css = before ++ cs :: after → ∀ ds, ds <+: cs → ds ≠ cs →
    tree.entry (locate start ds) = some .directory ∨
      tree.entry (locate start ds) = none ∧ ∃ es ∈ before, locate start es = locate start ds
  may : ∀ cs ∈ css, tree.entry (locate start cs) = none → mayMake (locate start cs) = true

theorem ensure_of_ready (hstart : tree.entry start = some .directory)
    (h : Ready mayMake start tree css) : (tree.ensure mayMake start css).1 = true := by
  induction css generalizing tree with
  | nil => rfl
  | cons cs css ih =>
    have hpasses : tree.Passes start cs := by
      intro ds hds hne
      rcases h.leads [] cs css rfl ds hds hne with hdir | ⟨-, es, hes, -⟩
      · exact hdir
      · cases hes
    unfold ensure
    rcases make_cases mayMake cs hstart with ⟨tree', hmake, -, hnone, -, hentry, hcwd⟩ |
      ⟨hmake, hfound⟩ | ⟨e, -, -, hfail⟩
    · have hgrows := grows_update hnone hentry hcwd
      simp only [hmake]
      refine ih (hgrows.directory hstart) ⟨fun before ds after e es hes hne => ?_, fun ds hds hnone' => ?_⟩
      · rcases h.leads (cs :: before) ds after (by rw [e]; rfl) es hes hne with hdir | ⟨hmiss, fs, hfs, e'⟩
        · exact Or.inl (hgrows.directory hdir)
        · by_cases heq : locate start es = locate start cs
          · left
            rw [hentry, heq, Function.update_self]
          · right
            rw [hentry, Function.update_of_ne heq]
            refine ⟨hmiss, fs, ?_, e'⟩
            rcases List.mem_cons.mp hfs with rfl | hfs
            · exact absurd e'.symm heq
            · exact hfs
      · by_cases heq : locate start ds = locate start cs
        · rw [hentry, heq, Function.update_self] at hnone'
          cases hnone'
        · rw [hentry, Function.update_of_ne heq] at hnone'
          exact h.may ds (List.mem_cons_of_mem _ hds) hnone'
    · simp only [hmake]
      refine ih hstart ⟨fun before ds after e es hes hne => ?_,
        fun ds hds => h.may ds (List.mem_cons_of_mem _ hds)⟩
      rcases h.leads (cs :: before) ds after (by rw [e]; rfl) es hes hne with hdir | ⟨hmiss, fs, hfs, e'⟩
      · exact Or.inl hdir
      · right
        refine ⟨hmiss, fs, ?_, e'⟩
        rcases List.mem_cons.mp hfs with rfl | hfs
        · exact absurd (e' ▸ hmiss) hfound.2
        · exact hfs
    · obtain ⟨hnone, hrefused⟩ := hfail hpasses
      rw [h.may cs List.mem_cons_self hnone] at hrefused
      cases hrefused

end DirTree

end FileTree

import UbServer.GzipPaths
import UbServer.Lib.FileTree

/-!
# Making a directory with those above it

`makeDirectory` of `helper.c` and its copy `mkpath` of `logger.c`, on a tree of files. `stat` and
`mkdir` follow a path component by component; `mkdir` fails with `EEXIST` on whatever is there.

* `makePath`: the body of both. `none` is an access outside the array `tmp`.
* `MakesPath`: what both are for.
* `makeDirectory_iff`: they do so exactly when the path is not that of a file that they get to.
-/

namespace UbServer

open FileTree

namespace Directories

/-! ### The system calls -/

/-- What stands between two slashes, as a component. Nothing stands between doubled ones. -/
def component (segment : Bytes) : Option (Component Bytes) :=
  if segment = [] then none
  else if segment = [46] then some .here
  else if segment = [46, 46] then some .up
  else some (.name segment)

def components (path : Bytes) : List (Component Bytes) := (path.splitOn 47).filterMap component

/-- Where a path starts: at the root if it begins with a slash. -/
def start (tree : DirTree Bytes) (path : Bytes) : List Bytes :=
  if path.head? = some 47 then [] else tree.cwd

/-- `stat(path, &sb) == 0 && S_ISDIR(sb.st_mode)`. -/
def isDirectory (tree : DirTree Bytes) (path : Bytes) : Bool :=
  path ≠ [] ∧ (tree.resolve (start tree path) (components path)).bind tree.entry = some .directory

/-- `mkdir(path, mode)`. -/
def mkdir (mayMake : List Bytes → Bool) (tree : DirTree Bytes) (path : Bytes) :
    Except DirTree.MakeError (DirTree Bytes) :=
  if path = [] then .error .unreachable else tree.make mayMake (start tree path) (components path)

/-! ### The functions -/

/-- The loop, with the string in `tmp` cut after `done` where `*p` is the first byte of `rest`, and
the call behind the loop. -/
def makePrefixes (mayMake : List Bytes → Bool) (tree : DirTree Bytes) (done : Bytes) :
    Bytes → ℤ × DirTree Bytes
  | [] =>
    match mkdir mayMake tree done with
    | .ok tree => (0, tree)
    | .error .eexist => (0, tree)
    | .error _ => (-1, tree)
  | c :: rest =>
    if c = 47 then
      match mkdir mayMake tree done with
      | .ok tree => makePrefixes mayMake tree (done ++ [c]) rest
      | .error .eexist => makePrefixes mayMake tree (done ++ [c]) rest
      | .error _ => (-1, tree)
    else makePrefixes mayMake tree (done ++ [c]) rest

/-- `tmp` after the test of its last byte. -/
def withoutTrailingSlash (tmp : Bytes) : Bytes := if tmp.getLast? = some 47 then tmp.dropLast else tmp

/-- The value returned, and the tree. -/
def makePath (mayMake : List Bytes → Bool) (tree : DirTree Bytes) (filePath : Bytes) :
    Option (ℤ × DirTree Bytes) :=
  if isDirectory tree filePath then some (0, tree)
  else
    (fits charMax filePath).bind fun tmp =>
      match withoutTrailingSlash tmp with
      | [] => none -- `p` starts behind the NUL
      | a :: rest => some (makePrefixes mayMake tree [a] rest)

/-- `makeDirectory` of `helper.c`. -/
def makeDirectory : (List Bytes → Bool) → DirTree Bytes → Bytes → Option (ℤ × DirTree Bytes) := makePath

/-- `mkpath` of `logger.c`. -/
def mkpath : (List Bytes → Bool) → DirTree Bytes → Bytes → Option (ℤ × DirTree Bytes) := makePath

/-! ### What they are for -/

/-- The path itself, or what stands before one of its slashes. -/
def AncestorPath (q path : Bytes) : Prop := q ≠ [] ∧ (q = path ∨ ∃ r, path = q ++ 47 :: r)

/-- The location that a path leads to, by its text alone. -/
def locationOf (tree : DirTree Bytes) (path : Bytes) : List Bytes :=
  locate (start tree path) (components path)

/-- A call returns 0 only if the path and those above it are directories then, makes only directories
that are among these, and changes nothing when it is made again. -/
def MakesPath (function : (List Bytes → Bool) → DirTree Bytes → Bytes → Option (ℤ × DirTree Bytes))
    (mayMake : List Bytes → Bool) (tree : DirTree Bytes) (path : Bytes) : Prop :=
  ∃ returned tree', function mayMake tree path = some (returned, tree') ∧
    (returned = 0 → ∀ q, AncestorPath q path → isDirectory tree' q = true) ∧
    (∀ l, tree'.entry l ≠ tree.entry l →
      tree.entry l = none ∧ tree'.entry l = some .directory ∧
        ∃ q, AncestorPath q path ∧ l = locationOf tree q) ∧
    (returned = 0 → ∀ mayMake', function mayMake' tree' path = some (0, tree'))

/-- The path names something that is there and no directory, and all that leads to it is a directory
or may be made. -/
def NamesFile (mayMake : List Bytes → Bool) (tree : DirTree Bytes) (path : Bytes) : Prop :=
  tree.entry (locationOf tree path) = some .other ∧
    ∀ cs, cs <+: components path → cs ≠ components path →
      tree.entry (locate (start tree path) cs) = some .directory ∨
        tree.entry (locate (start tree path) cs) = none ∧
          mayMake (locate (start tree path) cs) = true

/-! ### Paths and their components -/

section Components

variable {mayMake : List Bytes → Bool} {tree tree' : DirTree Bytes} {path done rest p q r s t : Bytes}

theorem components_append_slash (s t : Bytes) :
    components (s ++ 47 :: t) = components s ++ components t := by
  unfold components
  rw [List.splitOn_append_cons_self, List.filterMap_append]

theorem components_of_notMem (h : (47 : UInt8) ∉ s) : components s = (component s).toList := by
  unfold components
  rw [List.splitOn_eq_singleton h]
  cases hs : component s <;> simp [hs]

theorem components_concat_slash (s : Bytes) : components (s ++ [47]) = components s := by
  have h := components_append_slash s []
  rw [show components [] = [] from rfl, List.append_nil] at h
  exact h

theorem start_append (tree : DirTree Bytes) (hne : s ≠ []) (t : Bytes) :
    start tree (s ++ t) = start tree s := by
  obtain ⟨a, s, rfl⟩ := List.exists_cons_of_ne_nil hne
  rfl

theorem start_congr (hcwd : tree'.cwd = tree.cwd) (path : Bytes) :
    start tree' path = start tree path := by
  unfold start
  rw [hcwd]

theorem locationOf_congr (hcwd : tree'.cwd = tree.cwd) (path : Bytes) :
    locationOf tree' path = locationOf tree path := by
  unfold locationOf
  rw [start_congr hcwd]

theorem start_directory (tree : DirTree Bytes) (path : Bytes) :
    tree.entry (start tree path) = some .directory := by
  unfold start
  split
  · exact tree.root_directory
  · exact tree.cwd_directory

theorem prefix_of_append_toList {α : Type*} {cs l : List α} {o : Option α}
    (h : cs <+: l ++ o.toList) (hne : cs ≠ l ++ o.toList) : cs <+: l := by
  cases o with
  | none => simpa using h
  | some c => exact (List.prefix_concat_iff.mp h).resolve_left hne

theorem exists_cut {cs : List (Component Bytes)} (hcs : cs <+: components p)
    (hne : cs ≠ components p) (hnil : cs ≠ []) : ∃ q r, p = q ++ 47 :: r ∧ components q = cs := by
  induction hn : p.length using Nat.strongRecOn generalizing p with
  | ind n ih =>
    by_cases hslash : (47 : UInt8) ∈ p
    · obtain ⟨u, v, rfl, hv⟩ := exists_last hslash
      rw [components_append_slash, components_of_notMem hv] at hcs hne
      have hinit := prefix_of_append_toList hcs hne
      by_cases hu : cs = components u
      · exact ⟨u, v, rfl, hu.symm⟩
      · -- the cut is before the last slash
        obtain ⟨q, r, rfl, hq⟩ := ih u.length (by rw [← hn]; simp) hinit hu rfl
        exact ⟨q, r ++ 47 :: v, by simp, hq⟩
    · rw [components_of_notMem hslash, ← List.nil_append (Option.toList _)] at hcs hne
      exact absurd (List.prefix_nil.mp (prefix_of_append_toList hcs hne)) hnil

end Components

/-! ### The strings given to `mkdir` -/

/-- What the loop cuts, and the whole string. -/
def cutPaths (done : Bytes) : Bytes → List Bytes
  | [] => [done]
  | c :: rest => if c = 47 then done :: cutPaths (done ++ [c]) rest else cutPaths (done ++ [c]) rest

section Cuts

variable {mayMake : List Bytes → Bool} {tree tree' : DirTree Bytes} {path done rest p q r : Bytes}

theorem cutPaths_self (done rest : Bytes) : done ++ rest ∈ cutPaths done rest := by
  induction rest generalizing done with
  | nil => simp [cutPaths]
  | cons c rest ih =>
    have hmem := ih (done ++ [c])
    rw [List.append_assoc, List.singleton_append] at hmem
    unfold cutPaths
    split
    · exact List.mem_cons_of_mem _ hmem
    · exact hmem

theorem mem_cutPaths (h : p ∈ cutPaths done rest) :
    done <+: p ∧ (p = done ++ rest ∨ ∃ r, done ++ rest = p ++ 47 :: r) := by
  induction rest generalizing done with
  | nil =>
    obtain rfl := List.mem_singleton.mp h
    exact ⟨List.prefix_rfl, Or.inl (List.append_nil _).symm⟩
  | cons c rest ih =>
    have hrest : p ∈ cutPaths (done ++ [c]) rest →
        done <+: p ∧ (p = done ++ c :: rest ∨ ∃ r, done ++ c :: rest = p ++ 47 :: r) := by
      intro h
      obtain ⟨hinit, hcut⟩ := ih h
      rw [List.append_assoc, List.singleton_append] at hcut
      exact ⟨(List.prefix_append _ _).trans hinit, hcut⟩
    unfold cutPaths at h
    split at h
    · rename_i hc
      subst hc
      rcases List.mem_cons.mp h with rfl | h
      · exact ⟨List.prefix_rfl, Or.inr ⟨rest, rfl⟩⟩
      · exact hrest h
    · exact hrest h

theorem cutPaths_order {before after : List Bytes} (h : cutPaths done rest = before ++ p :: after)
    (hp : p = q ++ 47 :: r) (hlen : done.length ≤ q.length) : q ∈ before := by
  induction rest generalizing done before with
  | nil =>
    have hmem : p ∈ cutPaths done [] := by rw [h]; simp
    obtain rfl := List.mem_singleton.mp hmem
    rw [hp, List.length_append, List.length_cons] at hlen
    omega
  | cons c rest ih =>
    have hinit : q <+: p := hp ▸ List.prefix_append _ _
    have heq : done <+: p → q.length = done.length → q = done := fun hdone hl =>
      List.prefix_of_prefix_length_le hinit hdone hl.le |>.eq_of_length hl
    unfold cutPaths at h
    split at h
    · cases before with
      | nil =>
        obtain ⟨rfl, -⟩ := List.cons.inj h
        rw [hp, List.length_append, List.length_cons] at hlen
        omega
      | cons b before =>
        obtain ⟨rfl, htail⟩ := List.cons.inj h
        have hmem : p ∈ cutPaths (done ++ [c]) rest := by rw [htail]; simp
        by_cases hl : q.length = done.length
        · have hdone := (List.prefix_append done [c]).trans (mem_cutPaths hmem).1
          rw [heq hdone hl]
          exact List.mem_cons_self
        · refine List.mem_cons_of_mem _ (ih htail ?_)
          rw [List.length_append, List.length_singleton]
          omega
    · rename_i hc
      have hmem : p ∈ cutPaths (done ++ [c]) rest := by rw [h]; simp
      refine ih h ?_
      rw [List.length_append, List.length_singleton]
      by_contra hl
      -- the byte behind `done` would be the slash
      obtain ⟨t, ht⟩ := (mem_cutPaths hmem).1
      have hdone := (List.prefix_append done [c]).trans (mem_cutPaths hmem).1
      obtain rfl := heq hdone (by omega)
      rw [hp, List.append_assoc] at ht
      exact hc (List.cons.inj (List.append_cancel_left ht)).1

theorem mkdir_eq (hne : path ≠ []) :
    mkdir mayMake tree path = tree.make mayMake (start tree path) (components path) := if_neg hne

theorem makePrefixes_eq (hdone : done ≠ []) :
    makePrefixes mayMake tree done rest =
      (if (tree.ensure mayMake (start tree done) ((cutPaths done rest).map components)).1 then 0
        else -1, (tree.ensure mayMake (start tree done) ((cutPaths done rest).map components)).2) := by
  induction rest generalizing tree done with
  | nil =>
    unfold makePrefixes cutPaths
    rw [mkdir_eq hdone, List.map_singleton]
    unfold DirTree.ensure
    cases tree.make mayMake (start tree done) (components done) with
    | ok tree' => rfl
    | error e => cases e <;> rfl
  | cons c rest ih =>
    have hnext : ∀ tree' : DirTree Bytes, tree'.cwd = tree.cwd →
        start tree' (done ++ [c]) = start tree done := by
      intro tree' hcwd
      rw [start_append tree' hdone, start_congr hcwd]
    have hdone' : done ++ [c] ≠ [] := by simp
    unfold makePrefixes cutPaths
    split
    · rw [mkdir_eq hdone, List.map_cons]
      unfold DirTree.ensure
      cases hmake : tree.make mayMake (start tree done) (components done) with
      | ok tree' =>
        simp only
        rw [ih hdone', hnext tree' (DirTree.make_cwd hmake)]
      | error e =>
        cases e with
        | eexist =>
          simp only
          rw [ih hdone', hnext tree rfl]
        | unreachable => rfl
        | refused => rfl
    · rw [ih hdone', hnext tree rfl]

end Cuts

/-! ### The whole call -/

/-- What the call asks `mkdir` for, in order. -/
def cutsOf (path : Bytes) : List (List (Component Bytes)) :=
  match withoutTrailingSlash path with
  | [] => []
  | a :: rest => (cutPaths [a] rest).map components

section Call

variable {mayMake : List Bytes → Bool} {tree tree' : DirTree Bytes} {path q : Bytes}

theorem isDirectory_iff : isDirectory tree path = true ↔ path ≠ [] ∧
    tree.Passes (start tree path) (components path) ∧
      tree.entry (locationOf tree path) = some .directory := by
  unfold isDirectory locationOf
  rw [decide_eq_true_iff]
  refine and_congr_right fun _ => ?_
  rw [Option.bind_eq_some_iff]
  constructor
  · rintro ⟨l, hresolve, hl⟩
    obtain ⟨rfl, hpasses⟩ := DirTree.resolve_eq_some.mp hresolve
    exact ⟨hpasses, hl⟩
  · rintro ⟨hpasses, hl⟩
    exact ⟨_, DirTree.resolve_eq_some.mpr ⟨rfl, hpasses⟩, hl⟩

theorem withoutTrailingSlash_cases (path : Bytes) : path = withoutTrailingSlash path ∨
    path = withoutTrailingSlash path ++ [47] := by
  unfold withoutTrailingSlash
  split
  · rename_i hlast
    exact Or.inr (List.dropLast_append_getLast? 47 hlast).symm
  · exact Or.inl rfl

theorem isDirectory_of_nil (hne : path ≠ []) (h : withoutTrailingSlash path = []) :
    isDirectory tree path = true := by
  rcases withoutTrailingSlash_cases path with e | e
  · exact absurd (e.trans h) hne
  · rw [h, List.nil_append] at e
    subst e
    exact isDirectory_iff.mpr ⟨hne, fun ds hds hne => absurd (List.prefix_nil.mp hds) hne,
      tree.root_directory⟩

theorem AncestorPath.components (h : AncestorPath q path) :
    components q <+: components path := by
  rcases h.2 with rfl | ⟨r, rfl⟩
  · exact List.prefix_rfl
  · rw [components_append_slash]
    exact List.prefix_append _ _

theorem AncestorPath.start (h : AncestorPath q path) (tree : DirTree Bytes) :
    start tree q = start tree path := by
  rcases h.2 with rfl | ⟨r, rfl⟩
  · rfl
  · exact (start_append tree h.1 _).symm

/-- What the call asks for: the path itself and those above it, those above before those below. -/
structure CutsSpec (path : Bytes) (css : List (List (Component Bytes))) : Prop where
  whole : components path ∈ css
  ancestor : ∀ cs ∈ css, ∃ q, AncestorPath q path ∧ components q = cs
  order : ∀ before cs after, css = before ++ cs :: after →
    ∀ ds, ds <+: cs → ds ≠ cs → ds ≠ [] → ds ∈ before

theorem cutsOf_spec (h : withoutTrailingSlash path ≠ []) : CutsSpec path (cutsOf path) := by
  obtain ⟨a, rest, htmp⟩ := List.exists_cons_of_ne_nil h
  have hpath := withoutTrailingSlash_cases path
  unfold cutsOf
  rw [htmp] at hpath ⊢
  refine ⟨?_, fun cs hcs => ?_, fun before cs after e ds hds hne hnil => ?_⟩
  · refine List.mem_map.mpr ⟨a :: rest, cutPaths_self [a] rest, ?_⟩
    rcases hpath with rfl | rfl
    · rfl
    · exact (components_concat_slash _).symm
  · obtain ⟨q, hq, rfl⟩ := List.mem_map.mp hcs
    obtain ⟨hinit, hcut⟩ := mem_cutPaths hq
    refine ⟨q, ⟨?_, ?_⟩, rfl⟩
    · rintro rfl
      exact absurd (List.prefix_nil.mp hinit) (List.cons_ne_nil _ _)
    · rw [List.singleton_append] at hcut
      rcases hpath with hpath | hpath <;> rcases hcut with hcut | ⟨r, hcut⟩
      · exact Or.inl (hcut.trans hpath.symm)
      · exact Or.inr ⟨r, hpath.trans hcut⟩
      · exact Or.inr ⟨[], by rw [hpath, hcut]⟩
      · exact Or.inr ⟨r ++ [47], by rw [hpath, hcut]; simp⟩
  · obtain ⟨before', tail, hsplit, rfl, htail⟩ := List.map_eq_append_iff.mp e
    obtain ⟨p, after', rfl, rfl, rfl⟩ := List.map_eq_cons_iff.mp htail
    obtain ⟨q, r, hp, rfl⟩ := exists_cut hds hne hnil
    have hq : q ≠ [] := by
      rintro rfl
      exact hnil rfl
    exact List.mem_map_of_mem (cutPaths_order hsplit hp (List.length_pos_iff.mpr hq))

/-- The call in terms of the calls of `mkdir`. -/
theorem makePath_eq (hne : path ≠ []) (hshort : path.length < charMax) :
    makePath mayMake tree path =
      if isDirectory tree path then some (0, tree)
      else some (if (tree.ensure mayMake (start tree path) (cutsOf path)).1 then 0 else -1,
        (tree.ensure mayMake (start tree path) (cutsOf path)).2) := by
  unfold makePath
  split
  · rfl
  · rename_i hdir
    have htmp : withoutTrailingSlash path ≠ [] := fun h => hdir (isDirectory_of_nil hne h)
    obtain ⟨a, rest, htmp⟩ := List.exists_cons_of_ne_nil htmp
    have hstart : start tree [a] = start tree path := by
      rcases withoutTrailingSlash_cases path with e | e
      · rw [e, htmp]
        rfl
      · rw [e, htmp]
        rfl
    rw [fits_of_lt hshort, Option.bind_some]
    unfold cutsOf
    rw [htmp]
    simp only
    rw [makePrefixes_eq (List.cons_ne_nil _ _), hstart]

theorem isDirectory_ancestor (h : isDirectory tree path = true) (hq : AncestorPath q path) :
    isDirectory tree q = true := by
  obtain ⟨-, hpasses, hentry⟩ := isDirectory_iff.mp h
  rw [isDirectory_iff, hq.start]
  refine ⟨hq.1, hpasses.of_prefix hq.components, ?_⟩
  unfold locationOf at hentry ⊢
  rw [hq.start]
  by_cases e : components q = components path
  · rw [e]
    exact hentry
  · exact hpasses _ hq.components e

/-- Only directories of the path are made. -/
theorem makePath_grows (hne : path ≠ []) (hshort : path.length < charMax) {returned : ℤ}
    (h : makePath mayMake tree path = some (returned, tree')) :
    Grows (fun l => mayMake l = true ∧ ∃ q, AncestorPath q path ∧ l = locationOf tree q) tree
      tree' := by
  rw [makePath_eq hne hshort] at h
  split at h
  · obtain ⟨-, rfl⟩ := Prod.mk.inj (Option.some.inj h)
    exact Grows.refl _ _
  · rename_i hdir
    have htmp : withoutTrailingSlash path ≠ [] := fun h => hdir (isDirectory_of_nil hne h)
    obtain ⟨-, rfl⟩ := Prod.mk.inj (Option.some.inj h)
    refine (DirTree.ensure_spec mayMake (cutsOf path) (start_directory tree path)).1.mono ?_
    rintro l ⟨hmay, cs, hcs, rfl⟩
    obtain ⟨q, hq, rfl⟩ := (cutsOf_spec htmp).ancestor cs hcs
    refine ⟨hmay, q, hq, ?_⟩
    unfold locationOf
    rw [hq.start]

/-- What is asked for by a call that returns 0 is there, and is found there by the next call. -/
theorem makePath_found (hne : path ≠ []) (hshort : path.length < charMax)
    (h : makePath mayMake tree path = some (0, tree')) :
    tree'.Found (start tree path) (components path) ∧
      ∀ mayMake', makePath mayMake' tree' path = some (0, tree') := by
  have hstart := start_congr (makePath_grows hne hshort h).cwd path
  rw [makePath_eq hne hshort] at h
  split at h
  · rename_i hdir
    obtain ⟨-, rfl⟩ := Prod.mk.inj (Option.some.inj h)
    obtain ⟨-, hpasses, hentry⟩ := isDirectory_iff.mp hdir
    refine ⟨⟨hpasses, fun hnone => ?_⟩, fun mayMake' => ?_⟩
    · unfold locationOf at hentry
      rw [hnone] at hentry
      cases hentry
    · rw [makePath_eq hne hshort, if_pos hdir]
  · rename_i hdir
    have htmp : withoutTrailingSlash path ≠ [] := fun h => hdir (isDirectory_of_nil hne h)
    obtain ⟨hreturned, rfl⟩ := Prod.mk.inj (Option.some.inj h)
    have hok : (tree.ensure mayMake (start tree path) (cutsOf path)).1 = true := by
      by_contra hfail
      rw [if_neg hfail] at hreturned
      cases hreturned
    have hall := (DirTree.ensure_spec mayMake (cutsOf path) (start_directory tree path)).2 hok
    refine ⟨hall _ (cutsOf_spec htmp).whole, fun mayMake' => ?_⟩
    rw [makePath_eq hne hshort, hstart, DirTree.ensure_of_found mayMake' hall]
    split <;> rfl

theorem makePath_namesFile (hne : path ≠ []) (hshort : path.length < charMax)
    (h : NamesFile mayMake tree path) : ∃ tree', makePath mayMake tree path = some (0, tree') := by
  obtain ⟨hother, hlead⟩ := h
  rw [makePath_eq hne hshort]
  split
  · exact ⟨_, rfl⟩
  · rename_i hdir
    have htmp : withoutTrailingSlash path ≠ [] := fun h => hdir (isDirectory_of_nil hne h)
    have hspec := cutsOf_spec htmp
    have hinit : ∀ cs ∈ cutsOf path, cs <+: components path := by
      intro cs hcs
      obtain ⟨q, hq, rfl⟩ := hspec.ancestor cs hcs
      exact hq.components
    have hready : DirTree.Ready mayMake (start tree path) tree (cutsOf path) := by
      constructor
      · intro before cs after e ds hds hne
        have hcs := hinit cs (by rw [e]; simp)
        by_cases hnil : ds = []
        · subst hnil
          exact Or.inl (start_directory tree path)
        · have hproper : ds ≠ components path := by
            rintro rfl
            exact hne (hds.eq_of_length_le hcs.length_le)
          rcases hlead ds (hds.trans hcs) hproper with hd | ⟨hnone, -⟩
          · exact Or.inl hd
          · exact Or.inr ⟨hnone, ds, hspec.order before cs after e ds hds hne hnil, rfl⟩
      · intro cs hcs hnone
        have hproper : cs ≠ components path := by
          rintro rfl
          unfold locationOf at hother
          rw [hnone] at hother
          cases hother
        rcases hlead cs (hinit cs hcs) hproper with hd | ⟨-, hmay⟩
        · rw [hnone] at hd
          cases hd
        · exact hmay
    rw [DirTree.ensure_of_ready (start_directory tree path) hready]
    exact ⟨_, rfl⟩

/-- A call that returns 0 and leaves no directory was for a file that it gets to. -/
theorem namesFile_of_makePath (hne : path ≠ []) (hshort : path.length < charMax)
    (h : makePath mayMake tree path = some (0, tree')) (hdir : ¬ isDirectory tree' path = true) :
    NamesFile mayMake tree path := by
  have hgrows := makePath_grows hne hshort h
  obtain ⟨hpasses, hentry⟩ := (makePath_found hne hshort h).1
  have hother : tree'.entry (locationOf tree path) = some .other := by
    cases hkind : tree'.entry (locationOf tree path) with
    | none => exact absurd hkind hentry
    | some kind =>
      cases kind with
      | other => rfl
      | directory =>
        rw [← locationOf_congr hgrows.cwd] at hkind
        exact absurd (isDirectory_iff.mpr
          ⟨hne, (start_congr hgrows.cwd path).symm ▸ hpasses, hkind⟩) hdir
  refine ⟨hgrows.other hother, fun cs hcs hproper => ?_⟩
  have hd := hpasses cs hcs hproper
  by_cases hnone : tree.entry (locate (start tree path) cs) = none
  · rcases hgrows.new _ hnone with hnone' | ⟨-, hmay, -⟩
    · rw [hd] at hnone'
      cases hnone'
    · exact Or.inr ⟨hnone, hmay⟩
  · rw [hgrows.old _ hnone] at hd
    exact Or.inl hd

theorem makePath_makesPath_iff (hne : path ≠ []) (hshort : path.length < charMax) :
    MakesPath makePath mayMake tree path ↔ ¬ NamesFile mayMake tree path := by
  constructor
  · rintro ⟨returned, tree', h, hdirs, -⟩ hfile
    obtain ⟨tree'', h'⟩ := makePath_namesFile hne hshort hfile
    obtain ⟨rfl, rfl⟩ := Prod.mk.inj (Option.some.inj (h.symm.trans h'))
    have hgrows := makePath_grows hne hshort h
    have hentry := (isDirectory_iff.mp (hdirs rfl path ⟨hne, Or.inl rfl⟩)).2.2
    -- the file is still there
    rw [locationOf_congr hgrows.cwd, hgrows.old _ (by rw [hfile.1]; exact Option.some_ne_none _),
      hfile.1] at hentry
    cases hentry
  · intro hfile
    obtain ⟨⟨returned, tree'⟩, h⟩ : ∃ result, makePath mayMake tree path = some result := by
      rw [makePath_eq hne hshort]
      split <;> exact ⟨_, rfl⟩
    have hgrows := makePath_grows hne hshort h
    refine ⟨returned, tree', h, fun hzero q hq => ?_, fun l hl => ?_, fun hzero => ?_⟩
    · subst hzero
      by_contra hdir
      exact hfile (namesFile_of_makePath hne hshort h fun hpath =>
        hdir (isDirectory_ancestor hpath hq))
    · have hnone : tree.entry l = none := by
        by_contra hsome
        exact hl (hgrows.old l hsome)
      rcases hgrows.new l hnone with hsame | ⟨hdir, -, q, hq, e⟩
      · exact absurd (hsame.trans hnone.symm) hl
      · exact ⟨hnone, hdir, q, hq, e⟩
    · subst hzero
      exact (makePath_found hne hshort h).2

/-- What `makeContentEncoding` is given by this call, with what `isDirectory` and the calls of `mkdir`
answer. -/
theorem makeDirectory_env {env : ResponseEnv} (hne : path ≠ [])
    (hdir : env.isDirectory path = isDirectory tree path)
    (hmkdirs : ∀ returned tree', makeDirectory mayMake tree path = some (returned, tree') →
      env.mkdirs = decide (returned = 0)) :
    UbServer.makeDirectory env path =
      (makeDirectory mayMake tree path).map fun answer => decide (answer.1 = 0) := by
  unfold UbServer.makeDirectory
  by_cases hthere : isDirectory tree path = true
  · have hcall : makeDirectory mayMake tree path = some (0, tree) := if_pos hthere
    rw [hdir, if_pos hthere, hcall]
    rfl
  · rw [hdir, if_neg hthere]
    by_cases hshort : path.length < charMax
    · cases hcall : makeDirectory mayMake tree path with
      | none =>
        have heq : makePath mayMake tree path = _ := makePath_eq hne hshort
        rw [if_neg hthere] at heq
        cases heq.symm.trans hcall
      | some answer =>
        rw [show fits 127 path = some path from fits_of_lt hshort, hmkdirs answer.1 answer.2 hcall]
        rfl
    · have hfits : fits charMax path = none := if_neg hshort
      have hcall : makeDirectory mayMake tree path = none := by
        unfold makeDirectory makePath
        rw [if_neg hthere, hfits]
        rfl
      rw [show fits 127 path = none from hfits, hcall]
      rfl

/-- **Recursive `mkdir`.** On every tree, whatever the system lets one make, both functions do what
they are for exactly when the path is not that of a file that they get to. -/
theorem makeDirectory_iff (hne : path ≠ []) (hshort : path.length < charMax) :
    (MakesPath makeDirectory mayMake tree path ↔ ¬ NamesFile mayMake tree path) ∧
      (MakesPath mkpath mayMake tree path ↔ ¬ NamesFile mayMake tree path) :=
  ⟨makePath_makesPath_iff hne hshort, makePath_makesPath_iff hne hshort⟩

end Call

/-! ### A tree for concrete calls -/

/-- The root with the directory `srv`, where the process is, and the file `srv/x`. -/
def srvTree : DirTree Bytes :=
  let root : DirTree Bytes :=
    { entry := fun l => if l = [] ∨ l = [bytes "srv"] then some .directory else none
      cwd := [bytes "srv"]
      root_directory := by decide +kernel
      cwd_directory := by decide +kernel
      closed := by
        intro name location h
        have hl : location = [] := by
          by_contra hne
          refine h (if_neg ?_)
          rintro (e | e)
          · cases e
          · exact hne (List.cons.inj e).2
        rw [hl]
        rfl }
  root.insert [bytes "x", bytes "srv"] .other

/-- New directories, with doubled slashes and one at the end. -/
theorem makeDirectory_newDirectories :
    MakesPath makeDirectory (fun _ => true) srvTree (bytes "/srv//a///b/") ∧
      MakesPath mkpath (fun _ => true) srvTree (bytes "/srv//a///b/") := by
  have hfile : ¬ NamesFile (fun _ => true) srvTree (bytes "/srv//a///b/") :=
    fun h => absurd h.1 (by decide +kernel)
  have hiff : (MakesPath makeDirectory (fun _ => true) srvTree (bytes "/srv//a///b/") ↔ _) ∧ _ :=
    makeDirectory_iff (by decide +kernel) (by decide +kernel)
  exact ⟨hiff.1.mpr hfile, hiff.2.mpr hfile⟩

/-- A file at the path: the call returns 0 and there is no directory. -/
theorem makeDirectory_file : ¬ ∀ (mayMake : List Bytes → Bool) (tree : DirTree Bytes) (path : Bytes),
    path ≠ [] → path.length < charMax →
      MakesPath makeDirectory mayMake tree path ∧ MakesPath mkpath mayMake tree path := by
  intro h
  obtain ⟨⟨returned, tree', hcall, hdirs, -⟩, -⟩ := h (fun _ => true) srvTree (bytes "x")
    (by decide +kernel) (by decide +kernel)
  have hvalue : (makeDirectory (fun _ => true) srvTree (bytes "x")).map
      (fun r => (r.1, isDirectory r.2 (bytes "x"))) = some (0, false) := by decide +kernel
  rw [hcall] at hvalue
  obtain ⟨hzero, hdir⟩ := Prod.mk.inj (Option.some.inj hvalue)
  rw [hdirs hzero (bytes "x") ⟨by decide +kernel, Or.inl rfl⟩] at hdir
  cases hdir

end Directories

end UbServer

import UbServer.RequestLine
import UbServer.Lib.Paths

/-!
# The document root

Where the `absolutePath` that `processRequest` stores, and `makeResponse` opens, leads to.

* `InHtmlDir`: it is `htmlDir` or lies below it.
* `StaysInside`: what a path has to be for that.
* `inHtmlDir_iff`: the condition is exact.
-/

namespace UbServer

open CString Paths

/-- The path that a request line names: its second token, or what the array held. -/
def requestedPath (env : RequestEnv) (block : Bytes) : Bytes :=
  (requestLineTokens block).getD 1 env.path

/-- **Confinement** to the directory. -/
def InHtmlDir (htmlDir absolutePath : Bytes) : Prop :=
  (resolve absolutePath).Within (resolve htmlDir)

/-- The path continues the last name of the directory. -/
def Glued (htmlDir path : Bytes) : Prop :=
  lastPart htmlDir ≠ [] ∧ path ≠ [] ∧ path.head? ≠ some slash

instance (htmlDir path : Bytes) : Decidable (Glued htmlDir path) :=
  inferInstanceAs (Decidable (_ ∧ _ ∧ _))

/-- **A path that stays inside the directory** restores every name of the directory that it climbs
out of. A path that continues the last name of the directory has climbed out of that name; if that
is `..`, it has gone down to where `..` came from. -/
def StaysInside (htmlDir path : Bytes) : Prop :=
  if Glued htmlDir path then
    let continued := segments (lastPart htmlDir ++ path)
    match segment (lastPart htmlDir) with
    | none => (resolve htmlDir).Restored (net continued)
    | some (.name _) => (resolve htmlDir).Restored (net (.up :: continued))
    | some .up =>
      match (resolve (parentPart htmlDir)).names with
      | name :: _ => (resolve htmlDir).Restored (net (.name name :: continued))
      | [] => base htmlDir = .root ∨ (net continued).climbs = 1
  else (htmlDir = [] → path.head? ≠ some slash) ∧ (resolve htmlDir).Restored (net (segments path))

section Inside

variable {htmlDir path : Bytes}

theorem base_append (h : htmlDir ≠ []) : base (htmlDir ++ path) = base htmlDir := by
  obtain ⟨a, rest, rfl⟩ := List.exists_cons_of_ne_nil h
  rfl

theorem resolve_append (h : htmlDir ≠ []) : resolve (htmlDir ++ path) =
    (Place.run ⟨base htmlDir, []⟩ (segments (parentPart htmlDir))).run
      (segments (lastPart htmlDir ++ path)) := by
  unfold resolve
  rw [base_append h, ← Place.run_append, ← segments_parentPart_append, ← List.append_assoc,
    parentPart_append_lastPart]

theorem resolve_append_of_not_glued (h : htmlDir ≠ []) (hglued : ¬ Glued htmlDir path) :
    resolve (htmlDir ++ path) = (resolve htmlDir).run (segments path) := by
  have hsegments : segments (lastPart htmlDir ++ path) =
      segments (lastPart htmlDir) ++ segments path := by
    unfold Glued at hglued
    by_cases hlast : lastPart htmlDir = []
    · rw [hlast]
      rfl
    · by_cases hpath : path = []
      · rw [hpath, List.append_nil, segments_nil, List.append_nil]
      · obtain ⟨a, rest, rfl⟩ := List.exists_cons_of_ne_nil hpath
        have ha : a = slash := by
          by_contra hne
          exact hglued ⟨hlast, hpath, by simpa using hne⟩
        rw [ha, segments_append_slash]
        have := segments_append_slash [] rest
        rw [List.nil_append] at this
        rw [this, segments_nil, List.nil_append]
  have hdir : resolve (htmlDir ++ []) = _ := resolve_append h
  rw [List.append_nil, List.append_nil] at hdir
  rw [resolve_append h, hsegments, Place.run_append, ← hdir]

theorem resolve_eq_run_segment (h : htmlDir ≠ []) : resolve htmlDir =
    (Place.run ⟨base htmlDir, []⟩ (segments (parentPart htmlDir))).run
      (segment (lastPart htmlDir)).toList := by
  have hdir : resolve (htmlDir ++ []) = _ := resolve_append h
  rw [List.append_nil, List.append_nil] at hdir
  rw [hdir, segments_of_not_mem (slash_not_mem_lastPart _)]

theorem resolve_parentPart (htmlDir : Bytes) :
    resolve (parentPart htmlDir) =
      Place.run ⟨base htmlDir, []⟩ (segments (parentPart htmlDir)) := by
  by_cases hnil : parentPart htmlDir = []
  · have hdir := parentPart_append_lastPart htmlDir
    rw [hnil, List.nil_append] at hdir
    have hbase : base htmlDir = .working 0 := by
      unfold base
      rw [if_neg]
      intro hhead
      have hmem : slash ∈ htmlDir := List.mem_of_mem_head? hhead
      rw [← hdir] at hmem
      exact slash_not_mem_lastPart _ hmem
    rw [hnil, hbase]
    rfl
  · unfold resolve
    have hbase : base (parentPart htmlDir ++ lastPart htmlDir) = base (parentPart htmlDir) :=
      base_append hnil
    rw [← hbase, parentPart_append_lastPart]

theorem within_continued_name {p : Place Bytes} {name : Bytes} (continued : List (Segment Bytes)) :
    (p.run continued).Within (p.step (.name name)) ↔
      (p.step (.name name)).Restored (net (.up :: continued)) :=
  Place.within_run_iff (p.step (.name name)) (.up :: continued)

/-- After `..`, a name leads back. -/
theorem within_continued_up {p : Place Bytes} {name : Bytes} {names : List Bytes}
    (hnames : p.names = name :: names) (continued : List (Segment Bytes)) :
    (p.run continued).Within (p.step .up) ↔
      (p.step .up).Restored (net (.name name :: continued)) := by
  have hback : (p.step .up).step (.name name) = p := by
    obtain ⟨base, inner⟩ := p
    simp only at hnames
    subst hnames
    rfl
  have := Place.within_run_iff (p.step .up) (.name name :: continued)
  rwa [Place.run_cons, hback] at this

theorem within_continued_climb {p : Place Bytes} (hnames : p.names = [])
    (continued : List (Segment Bytes)) :
    (p.run continued).Within (p.step .up) ↔ p.base = .root ∨ (net continued).climbs = 1 := by
  obtain ⟨base, names⟩ := p
  simp only at hnames
  subst hnames
  rw [Place.run_eq_follow]
  unfold Place.Within Place.follow Place.step
  simp only [List.length_nil, Nat.sub_zero, List.nil_suffix, and_true]
  cases base with
  | root => simp [Base.climb]
  | working climbs => simp [Base.climb]

/-- **The condition is exact.** -/
theorem inHtmlDir_iff : InHtmlDir htmlDir (htmlDir ++ path) ↔ StaysInside htmlDir path := by
  unfold InHtmlDir StaysInside
  by_cases hempty : htmlDir = []
  · subst hempty
    have hglued : ¬ Glued [] path := fun h => h.1 rfl
    rw [if_neg hglued, List.nil_append]
    by_cases hslash : path.head? = some slash
    · refine iff_of_false (fun h => ?_) fun h => h.1 rfl hslash
      have hroot := h.1
      unfold resolve base at hroot
      rw [if_pos hslash, Place.run_eq_follow] at hroot
      cases hroot
    · have hresolve : resolve path = (resolve []).run (segments path) := by
        unfold resolve base
        rw [if_neg hslash]
        rfl
      rw [hresolve, Place.within_run_iff]
      exact ⟨fun h => ⟨fun _ => hslash, h⟩, fun h => h.2⟩
  · by_cases hglued : Glued htmlDir path
    · rw [if_pos hglued, resolve_append hempty, ← resolve_parentPart htmlDir]
      have hdir := resolve_eq_run_segment hempty
      rw [← resolve_parentPart htmlDir] at hdir
      simp only
      cases hlast : segment (lastPart htmlDir) with
      | none =>
        rw [hlast] at hdir
        rw [hdir]
        exact Place.within_run_iff _ _
      | some last =>
        rw [hlast] at hdir
        cases last with
        | name a =>
          rw [hdir]
          exact within_continued_name _
        | up =>
          cases hnames : (resolve (parentPart htmlDir)).names with
          | cons name names =>
            rw [hdir]
            exact within_continued_up hnames _
          | nil =>
            have hbase : (resolve (parentPart htmlDir)).base = .root ↔ base htmlDir = .root := by
              rw [resolve_parentPart htmlDir, Place.run_eq_follow]
              cases base htmlDir <;> simp [Place.follow, Base.climb]
            rw [hdir, ← hbase]
            exact within_continued_climb hnames _
    · rw [if_neg hglued, resolve_append_of_not_glued hempty hglued, Place.within_run_iff]
      exact ⟨fun h => ⟨fun hnil => absurd hnil hempty, h⟩, fun h => h.2⟩

/-- The path may also continue the directory's name, and so name a sibling. -/
example : ¬ InHtmlDir (bytes "/www") (bytes "/www-private/key") := by
  unfold InHtmlDir
  decide +kernel

theorem staysInside_of_not_mem_up (hempty : htmlDir ≠ []) (hslash : path.head? = some slash)
    (hup : .up ∉ segments path) : StaysInside htmlDir path := by
  unfold StaysInside
  rw [if_neg fun h : Glued htmlDir path => h.2.2 hslash]
  exact ⟨fun hnil => absurd hnil hempty,
    Place.restored_of_climbs_eq_zero (climbs_net_of_not_mem hup)⟩

end Inside

/-! ### What `processRequest` stores -/

section Stored

variable {options : Options} {env : RequestEnv} {c c' : QueueConnectionElementType} {block : Bytes}

/-- An accepted request names its path, and the path makes the `absolutePath`. -/
theorem processRequest_absolutePath (hblock : c.requestBuffer = some block)
    (h : processRequest options env c = some (true, c')) :
    c'.absolutePath = some (absolutePathOf options (requestedPath env block)) := by
  unfold processRequest at h
  simp only [hblock, Option.bind_eq_bind, Option.bind_some] at h
  cases hpeer : env.peer with
  | none => simp [hpeer] at h
  | some ip =>
    cases hcrlf : strstr crlf (cString block) with
    | none => simp [hpeer, hcrlf] at h
    | some firstLineLength =>
      simp only [hpeer, hcrlf] at h
      obtain ⟨⟨method, path, protocolVersion⟩, hscan, h⟩ := Option.bind_eq_some_iff.mp h
      have hpath : path = requestedPath env block := by
        unfold requestedPath requestLineTokens
        rw [hcrlf]
        obtain ⟨-, ⟨hpath, -⟩, -⟩ := scanRequestLine_inv hscan
        exact hpath
      subst hpath
      simp only at h
      split at h
      · cases h
      · cases h
        unfold processHeaders
        simp only
        split <;> rfl

/-- **Confinement to the document root** of an accepted request holds exactly when the path that its
request line names, without its query, stays inside. -/
theorem inHtmlDir_iff_staysInside (hblock : c.requestBuffer = some block)
    (h : processRequest options env c = some (true, c')) :
    ∃ absolutePath, c'.absolutePath = some absolutePath ∧
      (InHtmlDir options.htmlDir absolutePath ↔
        StaysInside options.htmlDir (realPath (requestedPath env block))) :=
  ⟨_, processRequest_absolutePath hblock h, inHtmlDir_iff⟩

end Stored

/-! ### Requests for files outside -/

def outsideRequest : Bytes := bytes "GET /../etc/passwd HTTP/1.1\r\n\r\n" ++ [0]

/-- `..` leads out of the directory. -/
theorem not_inHtmlDir_outsideRequest :
    ¬ ∀ (options : Options) (env : RequestEnv) (c c' : QueueConnectionElementType)
      (absolutePath : Bytes), processRequest options env c = some (true, c') →
        c'.absolutePath = some absolutePath → InHtmlDir options.htmlDir absolutePath := by
  intro h
  have hstored : (processRequest wwwOptions localEnv
      { emptyConnection with requestBuffer := some outsideRequest }).map
        (fun answer => (answer.1, answer.2.absolutePath)) =
          some (true, some (bytes "/www/../etc/passwd")) := by decide +kernel
  obtain ⟨⟨valid, c'⟩, hrequest, hanswer⟩ := Option.map_eq_some_iff.mp hstored
  obtain ⟨rfl, hpath⟩ := Prod.mk.inj hanswer
  have hinside := h _ _ _ _ _ hrequest hpath
  revert hinside
  unfold InHtmlDir
  decide +kernel

/-- The index page is inside. -/
theorem inHtmlDir_indexPage :
    ∃ c' absolutePath, processRequest wwwOptions localEnv
        { emptyConnection with requestBuffer := some (indexPageRequest ++ [0]) } = some (true, c') ∧
      c'.absolutePath = some absolutePath ∧
      (InHtmlDir wwwOptions.htmlDir absolutePath ↔ StaysInside wwwOptions.htmlDir
        (realPath (requestedPath localEnv (indexPageRequest ++ [0])))) := by
  have hvalid : (processRequest wwwOptions localEnv
      { emptyConnection with requestBuffer := some (indexPageRequest ++ [0]) }).map Prod.fst =
        some true := by decide +kernel
  obtain ⟨⟨valid, c'⟩, hrequest, rfl⟩ := Option.map_eq_some_iff.mp hvalid
  obtain ⟨absolutePath, hpath, hiff⟩ := inHtmlDir_iff_staysInside rfl hrequest
  exact ⟨c', absolutePath, hrequest, hpath, hiff⟩

end UbServer

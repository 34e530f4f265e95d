import UbServer.DocumentRoot
import Mathlib.Data.List.DropRight

/-!
# The arrays of the gzip cache

The lengths that `makeContentEncoding` and `makeDirectory` compute before they store a string.

* `GzipLocals`: the strings, as the code computes them.
* `StringCopy`: a string and the array that is to hold it.
* `SizesInRange`: no length wraps around and every string fits.
* `sizesInRange_iff`: the paths for which that is so.
-/

namespace UbServer

open CString

/-! ### Sizes -/

/-- The local variables of `makeContentEncoding`. -/
structure GzipLocals where
  fileName : Bytes
  relativePathFile : Bytes
  relativePathLength : ℕ
  relativePath : Bytes
  pathGzipCache : Bytes
  gzipPath : Bytes

/-- Their values, with the last slash of the absolute path at `slash`. -/
def gzipLocals (options : Options) (cwd absolutePath : Bytes) (stAtime : ℤ) (slash : ℕ) :
    GzipLocals :=
  let fileName := absolutePath.drop (slash + 1)
  let relativePathFile := absolutePath.drop options.htmlDir.length
  let relativePathLength := sizeSub relativePathFile.length fileName.length
  let relativePath := relativePathFile.take relativePathLength
  let pathGzipCache := cwd ++ bytes "/cache/gzip" ++ relativePath
  { fileName := fileName
    relativePathFile := relativePathFile
    relativePathLength := relativePathLength
    relativePath := relativePath
    pathGzipCache := pathGzipCache
    gzipPath := pathGzipCache ++ bytes (toString stAtime) ++ bytes "-" ++ fileName ++ bytes ".gz" }

/-- A string, and the size of the array that it is stored in with its NUL. -/
structure StringCopy where
  size : ℕ
  text : Bytes

def StringCopy.Fits (copy : StringCopy) : Prop := copy.text.length < copy.size

/-- `CHAR_MAX`. -/
def charMax : ℕ := 127

/-- The copies that `makeContentEncoding` makes, and the one that `makeDirectory` makes of the path of
a directory that is not there. -/
def gzipCopies (env : ResponseEnv) (absolutePath : Bytes) (l : GzipLocals) : List StringCopy :=
  [⟨absolutePath.length, l.relativePathFile⟩, ⟨l.relativePathLength + 1, l.relativePath⟩,
    ⟨l.pathGzipCache.length + 1, l.pathGzipCache⟩] ++
  (if env.isDirectory l.pathGzipCache then [] else [⟨charMax, l.pathGzipCache⟩]) ++
  [⟨l.gzipPath.length + 1, l.gzipPath⟩]

/-- **Gzip path arithmetic**: the length of the relative path does not wrap around, the two cuts
nest, and every string fits its array. Without a slash in the path nothing is computed. -/
def SizesInRange (options : Options) (env : ResponseEnv) (cwd absolutePath : Bytes) (stAtime : ℤ) :
    Prop :=
  ∀ slash, strrchr absolutePath 47 = some slash →
    let l := gzipLocals options cwd absolutePath stAtime slash
    l.fileName.length ≤ l.relativePathFile.length ∧
      l.relativePath ++ l.fileName = l.relativePathFile ∧
      ∀ copy ∈ gzipCopies env absolutePath l, copy.Fits

/-- The directory of the cache for a path: what the path has up to its last slash. -/
def cacheDirectory (cwd path : Bytes) : Bytes :=
  cwd ++ bytes "/cache/gzip" ++ path.rdropWhile (· ≠ 47)

/-- The last slash is in the path, or the document root ends with it, and the directory of the cache
is there or has a name shorter than `CHAR_MAX`; or there is no slash at all. -/
def CachePathFits (options : Options) (env : ResponseEnv) (cwd path : Bytes) : Prop :=
  (47 : UInt8) ∉ options.htmlDir ++ path ∨
    (47 ∈ path ∨ options.htmlDir.getLast? = some 47) ∧
      (env.isDirectory (cacheDirectory cwd path) ∨ (cacheDirectory cwd path).length < charMax)

/-! ### The last slash -/

theorem strrchr_append_cons {c : UInt8} {v : Bytes} (hv : c ∉ v) (u : Bytes) :
    strrchr (u ++ c :: v) c = some u.length := by
  have hnone : v.reverse.findIdx? (· == c) = none := by
    rw [List.findIdx?_eq_none_iff]
    intro b hb
    simp only [beq_eq_false_iff_ne, ne_eq]
    rintro rfl
    exact hv (List.mem_reverse.mp hb)
  have hsome : (c :: u.reverse).findIdx? (· == c) = some 0 := by simp [List.findIdx?_cons]
  unfold strrchr
  rw [List.reverse_append, List.reverse_cons, List.append_assoc, List.singleton_append,
    List.findIdx?_append, hnone, hsome]
  simp only [Option.none_or, Option.map_some, List.length_append, List.length_cons,
    List.length_reverse, Option.some.injEq]
  omega

theorem strrchr_eq_none {c : UInt8} {s : Bytes} : strrchr s c = none ↔ c ∉ s := by
  unfold strrchr
  rw [Option.map_eq_none_iff, List.findIdx?_eq_none_iff]
  simp only [List.mem_reverse, beq_eq_false_iff_ne, ne_eq]
  exact ⟨fun h hc => h c hc rfl, fun h b hb hbc => h (hbc ▸ hb)⟩

theorem exists_last {c : UInt8} {s : Bytes} (h : c ∈ s) : ∃ u v, s = u ++ c :: v ∧ c ∉ v := by
  induction s with
  | nil => cases h
  | cons a s ih =>
    by_cases hs : c ∈ s
    · obtain ⟨u, v, rfl, hv⟩ := ih hs
      exact ⟨a :: u, v, rfl, hv⟩
    · obtain rfl := (List.mem_cons.mp h).resolve_right hs
      exact ⟨[], s, rfl, hs⟩

/-! ### The sizes for a path -/

section Sizes

variable {options : Options} {env : ResponseEnv} {cwd path : Bytes} {stAtime : ℤ}

/-- The copies of the string of the directory are the ones that may not fit. -/
theorem gzipCopies_fit (env : ResponseEnv) (absolutePath : Bytes) {l : GzipLocals}
    (hfile : l.relativePathFile.length < absolutePath.length)
    (hpath : l.relativePath.length ≤ l.relativePathLength) :
    (∀ copy ∈ gzipCopies env absolutePath l, copy.Fits) ↔
      env.isDirectory l.pathGzipCache ∨ l.pathGzipCache.length < charMax := by
  have hone : l.relativePath.length < l.relativePathLength + 1 := Nat.lt_succ_of_le hpath
  unfold gzipCopies StringCopy.Fits
  by_cases hthere : env.isDirectory l.pathGzipCache
  · simp [hthere, hfile, hone]
  · simp [hthere, hfile, hone]

/-- Where the length does not wrap around, only the copy of the directory's path may not fit. -/
theorem sizesInRange_of_le {absolutePath : Bytes} {slash : ℕ}
    (hslash : strrchr absolutePath 47 = some slash)
    (hfile : (absolutePath.drop options.htmlDir.length).length < absolutePath.length)
    (hle : (absolutePath.drop (slash + 1)).length ≤
      (absolutePath.drop options.htmlDir.length).length)
    (hshort : (absolutePath.drop options.htmlDir.length).length < 2 ^ 64) :
    SizesInRange options env cwd absolutePath stAtime ↔
      env.isDirectory (gzipLocals options cwd absolutePath stAtime slash).pathGzipCache ∨
        (gzipLocals options cwd absolutePath stAtime slash).pathGzipCache.length < charMax := by
  have hsub := sizeSub_of_le hle hshort
  have hfit := gzipCopies_fit env absolutePath
    (l := gzipLocals options cwd absolutePath stAtime slash) hfile (List.length_take_le _ _)
  rw [← hfit]
  constructor
  · intro h
    exact (h slash hslash).2.2
  · intro h slash' hslash'
    obtain rfl := Option.some.inj (hslash.symm.trans hslash')
    refine ⟨hle, ?_, h⟩
    -- both cuts are at the end of the absolute path
    obtain ⟨u, hu⟩ := List.suffix_of_suffix_length_le (List.drop_suffix _ _) (List.drop_suffix _ _) hle
    have hlen := congrArg List.length hu
    rw [List.length_append] at hlen
    unfold gzipLocals
    dsimp only
    rw [hsub, ← hlen, Nat.add_sub_cancel, ← hu, List.take_left]

/-- The cuts nest when the last slash is not before the end of the document root. -/
theorem sizesInRange_of_slash (slash : ℕ) {u v : Bytes} (hdir : options.htmlDir ≠ [])
    (hshort : path.length < 2 ^ 64)
    (hslash : strrchr (options.htmlDir ++ path) 47 = some slash)
    (hname : (options.htmlDir ++ path).drop (slash + 1) = v) (hpath : path = u ++ v) :
    SizesInRange options env cwd (options.htmlDir ++ path) stAtime ↔
      env.isDirectory (cwd ++ bytes "/cache/gzip" ++ u) ∨
        (cwd ++ bytes "/cache/gzip" ++ u).length < charMax := by
  have hfile : (options.htmlDir ++ path).drop options.htmlDir.length = path := List.drop_left
  have hlen : path.length = u.length + v.length := by rw [hpath, List.length_append]
  have hpos : 0 < options.htmlDir.length := List.length_pos_iff.mpr hdir
  have hsub : sizeSub path.length v.length = u.length := by
    rw [sizeSub_of_le (by omega) hshort]
    omega
  have htake : path.take u.length = u := by rw [hpath, List.take_left]
  have hcache : (gzipLocals options cwd (options.htmlDir ++ path) stAtime slash).pathGzipCache =
      cwd ++ bytes "/cache/gzip" ++ u := by
    unfold gzipLocals
    simp only [hname, hfile, hsub, htake]
  rw [← hcache]
  refine sizesInRange_of_le hslash ?_ ?_ ?_
  · rw [hfile, List.length_append]
    omega
  · rw [hname, hfile]
    omega
  · rwa [hfile]

/-- **The sizes are in range** exactly for these paths. -/
theorem sizesInRange_iff (hdir : options.htmlDir ≠ []) (hshort : path.length < 2 ^ 64) :
    SizesInRange options env cwd (options.htmlDir ++ path) stAtime ↔
      CachePathFits options env cwd path := by
  unfold CachePathFits cacheDirectory
  by_cases hnone : (47 : UInt8) ∉ options.htmlDir ++ path
  · refine iff_of_true (fun slash hslash => ?_) (Or.inl hnone)
    rw [strrchr_eq_none.mpr hnone] at hslash
    cases hslash
  rw [or_iff_right hnone]
  rw [not_not] at hnone
  by_cases hmem : (47 : UInt8) ∈ path
  · obtain ⟨u, v, rfl, hv⟩ := exists_last hmem
    have hdrop : (u ++ 47 :: v).rdropWhile (· ≠ 47) = u ++ [47] := by
      have hplain : ∀ c ∈ v.reverse, decide (c ≠ 47) = true := fun c hc =>
        decide_eq_true fun h => hv (h ▸ List.mem_reverse.mp hc)
      unfold List.rdropWhile
      rw [List.reverse_append, List.reverse_cons, List.append_assoc, List.singleton_append,
        List.dropWhile_append_of_pos hplain, List.dropWhile_cons_of_neg (by decide),
        List.reverse_cons, List.reverse_reverse]
    rw [hdrop, and_iff_right (Or.inl hmem)]
    refine sizesInRange_of_slash (options.htmlDir ++ u).length (v := v) hdir hshort ?_ ?_ (by simp)
    · rw [← List.append_assoc]
      exact strrchr_append_cons hv _
    · rw [← List.append_assoc, ← List.drop_drop, List.drop_left]
      rfl
  · have hdrop : path.rdropWhile (· ≠ 47) = [] :=
      List.rdropWhile_eq_nil_iff.mpr fun c hc => decide_eq_true fun h => hmem (h ▸ hc)
    obtain ⟨u, v, huv, hv⟩ := exists_last ((List.mem_append.mp hnone).resolve_right hmem)
    have hslash : strrchr (options.htmlDir ++ path) 47 = some u.length := by
      rw [huv, List.append_assoc, List.cons_append]
      exact strrchr_append_cons (by simpa using ⟨hv, hmem⟩) u
    have hname : (options.htmlDir ++ path).drop (u.length + 1) = v ++ path := by
      rw [huv, List.append_assoc, ← List.drop_drop, List.drop_left]
      rfl
    cases v with
    | nil =>
      have hlast : options.htmlDir.getLast? = some 47 := by rw [huv]; simp
      rw [hdrop, and_iff_right (Or.inr hlast)]
      exact sizesInRange_of_slash u.length hdir hshort hslash hname rfl
    | cons a v =>
      -- the file name starts in the document root
      have hlast : options.htmlDir.getLast? ≠ some 47 := by
        have hend : options.htmlDir.getLast? = (a :: v).getLast? := by
          rw [huv]
          simp [List.getLast?_cons]
        rw [hend]
        exact fun h => hv (List.mem_of_getLast? h)
      refine iff_of_false (fun h => ?_) fun h => h.1.elim hmem hlast
      have hle := (h u.length hslash).1
      have hfile : (options.htmlDir ++ path).drop options.htmlDir.length = path := List.drop_left
      unfold gzipLocals at hle
      dsimp only at hle
      rw [hname, hfile, List.length_append, List.length_cons] at hle
      omega

/-- The model of `makeContentEncoding` gives a name to the compressed copy only where the sizes are in
range, and gives the one that is printed. -/
theorem gzipPathOf_eq_some {absolutePath gzipPath : Bytes} (hcwd : env.cwd = some cwd)
    (hshort : absolutePath.length < 2 ^ 64) :
    gzipPathOf options env absolutePath stAtime = some gzipPath ↔
      ∃ slash, strrchr absolutePath 47 = some slash ∧
        SizesInRange options env cwd absolutePath stAtime ∧
        (env.isDirectory (gzipLocals options cwd absolutePath stAtime slash).pathGzipCache ∨
          env.mkdirs) ∧
        (gzipLocals options cwd absolutePath stAtime slash).gzipPath = gzipPath := by
  unfold gzipPathOf
  cases hslash : strrchr absolutePath 47 with
  | none => simp
  | some slash =>
    have hrel : (absolutePath.drop options.htmlDir.length).length ≤ absolutePath.length :=
      (List.drop_suffix _ _).length_le
    have hcopy : SizesInRange options env cwd absolutePath stAtime →
        (absolutePath.drop options.htmlDir.length).length < absolutePath.length := fun h =>
      (h slash hslash).2.2 ⟨_, _⟩ (List.mem_append_left _ (List.mem_append_left _
        (List.mem_cons_self ..)))
    simp only [hcwd, Option.bind_eq_bind, Option.bind_some, Option.some.injEq, exists_eq_left']
    by_cases hfile : (absolutePath.drop options.htmlDir.length).length < absolutePath.length
    swap
    · rw [show fits absolutePath.length _ = none from if_neg hfile]
      exact iff_of_false (by simp) fun h => hfile (hcopy h.1)
    by_cases hle : (absolutePath.drop (slash + 1)).length ≤
        (absolutePath.drop options.htmlDir.length).length
    swap
    · rw [fits_of_lt hfile, Option.bind_some, if_neg hle]
      exact iff_of_false (by simp) fun h => hle (h.1 slash hslash).1
    have hshort' := hrel.trans_lt hshort
    have hcache : (gzipLocals options cwd absolutePath stAtime slash).pathGzipCache =
        cwd ++ bytes "/cache/gzip" ++ (absolutePath.drop options.htmlDir.length).take
          ((absolutePath.drop options.htmlDir.length).length -
            (absolutePath.drop (slash + 1)).length) := by
      rw [← sizeSub_of_le hle hshort']
      rfl
    have hpath : (gzipLocals options cwd absolutePath stAtime slash).gzipPath =
        (gzipLocals options cwd absolutePath stAtime slash).pathGzipCache ++
          bytes (toString stAtime) ++ bytes "-" ++ absolutePath.drop (slash + 1) ++ bytes ".gz" := rfl
    rw [sizesInRange_of_le hslash hfile hle hshort', fits_of_lt hfile, Option.bind_some, if_pos hle,
      hpath, hcache]
    -- what `makeDirectory` answers
    generalize cwd ++ bytes "/cache/gzip" ++ List.take _ _ = dir
    unfold makeDirectory charMax
    by_cases hthere : env.isDirectory dir
    · simp [hthere]
    · by_cases hfits : dir.length < 127
      · cases env.mkdirs <;> simp [hthere, fits_of_lt hfits, hfits]
      · simp [hthere, show fits 127 dir = none from if_neg hfits, hfits]

end Sizes

/-! ### The sizes for a request -/

section Request

variable {options : Options} {requestEnv : RequestEnv} {c c' : QueueConnectionElementType}
  {block cwd : Bytes}

theorem requestedPath_length (hblock : c.requestBuffer = some block)
    (h : processRequest options requestEnv c = some (true, c')) :
    (requestedPath requestEnv block).length < requestPathMaxSize := by
  obtain ⟨block', firstLineLength, method, path, protocolVersion, hblock', -, hline, hscan, -⟩ :=
    processRequest_accepted h
  obtain rfl := Option.some.inj (hblock.symm.trans hblock')
  unfold requestedPath
  rw [requestLineTokens_eq hline]
  obtain ⟨-, ⟨rfl, hlt⟩, -⟩ := scanRequestLine_inv hscan
  exact hlt

theorem length_realPath (path : Bytes) : (realPath path).length ≤ path.length + 11 := by
  have hle : (path.takeWhile (· ≠ 63)).length ≤ path.length := (List.takeWhile_prefix _).length_le
  have hindex : (bytes "/index.html").length = 11 := by decide +kernel
  unfold realPath
  dsimp only
  split_ifs
  · omega
  · omega

/-- **Gzip path arithmetic** of an accepted request is exact and in range exactly when the last slash
of its path or the document root is where the cuts expect it and the name of the cache directory is
short enough to be copied, or nothing is computed. -/
theorem gzipSizes_iff {env : ResponseEnv} (stAtime : ℤ) (hblock : c.requestBuffer = some block)
    (hparse : processRequest options requestEnv c = some (true, c'))
    (hdir : options.htmlDir ≠ []) :
    ∃ absolutePath, c'.absolutePath = some absolutePath ∧
      (SizesInRange options env cwd absolutePath stAtime ↔
        CachePathFits options env cwd (realPath (requestedPath requestEnv block))) := by
  refine ⟨_, processRequest_absolutePath hblock hparse, sizesInRange_iff hdir ?_⟩
  have hpath := requestedPath_length hblock hparse
  have hreal := length_realPath (requestedPath requestEnv block)
  unfold requestPathMaxSize at hpath
  omega

/-- A request whose path has no slash and continues the name of the document root. -/
def gluedRequest : Bytes :=
  bytes "GET foo HTTP/1.1\r\naccept-encoding: gzip\r\n\r\n" ++ [0]

/-- A request for the index page, compressed. -/
def gzipIndexRequest : Bytes :=
  bytes "GET / HTTP/1.1\r\naccept-encoding: gzip\r\n\r\n" ++ [0]

theorem exists_gzip_of_any (block : Bytes)
    (h : (processRequest wwwOptions localEnv { emptyConnection with requestBuffer := some block }).any
      (fun answer => answer.1 && acceptsGzip answer.2.requestHeaders) = true) :
    ∃ c', processRequest wwwOptions localEnv { emptyConnection with requestBuffer := some block } =
        some (true, c') ∧ acceptsGzip c'.requestHeaders = true := by
  obtain ⟨⟨valid, c'⟩, hparse, hgzip⟩ := (Option.any_eq_true _ _).mp h
  obtain ⟨rfl, hgzip⟩ := Bool.and_eq_true_iff.mp hgzip
  exact ⟨c', hparse, hgzip⟩

/-- The file name is longer than the relative path that it is to be cut from. -/
theorem gzipSizes_gluedRequest :
    ¬ ∀ (options : Options) (requestEnv : RequestEnv) (env : ResponseEnv)
      (c c' : QueueConnectionElementType) (block cwd : Bytes) (stAtime : ℤ),
      c.requestBuffer = some block → processRequest options requestEnv c = some (true, c') →
      acceptsGzip c'.requestHeaders = true → options.htmlDir ≠ [] →
      env.cwd = some cwd ∧ cwd.length < 1024 →
        ∃ absolutePath, c'.absolutePath = some absolutePath ∧
          SizesInRange options env cwd absolutePath stAtime := by
  intro h
  obtain ⟨c', hparse, hgzip⟩ := exists_gzip_of_any gluedRequest (by decide +kernel)
  obtain ⟨absolutePath, habs, hsizes⟩ := h wwwOptions localEnv localResponseEnv _ c' gluedRequest
    (bytes "/srv") 0 rfl hparse hgzip (by decide +kernel) ⟨rfl, by decide +kernel⟩
  have hpath := processRequest_absolutePath rfl hparse
  obtain rfl := Option.some.inj (hpath.symm.trans habs)
  exact absurd (hsizes 0 (by decide +kernel)).1 (by decide +kernel)

theorem gzipSizes_indexPage :
    ∃ c', processRequest wwwOptions localEnv
        { emptyConnection with requestBuffer := some gzipIndexRequest } = some (true, c') ∧
      ∃ absolutePath, c'.absolutePath = some absolutePath ∧
        (SizesInRange wwwOptions localResponseEnv (bytes "/srv") absolutePath 0 ↔
          CachePathFits wwwOptions localResponseEnv (bytes "/srv")
            (realPath (requestedPath localEnv gzipIndexRequest))) := by
  obtain ⟨c', hparse, -⟩ := exists_gzip_of_any gzipIndexRequest (by decide +kernel)
  exact ⟨c', hparse, gzipSizes_iff 0 rfl hparse (by decide +kernel)⟩

end Request

end UbServer

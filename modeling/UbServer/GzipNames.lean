import UbServer.GzipPaths

/-!
# The names of the gzip cache

A name is a directory, an access time, a dash, a file name and `.gz`. Only the directory has slashes,
and only the dash behind the digits of the time ends them, so that a name is read back in one way
(`cacheName_inj`): two resources, or one resource with two access times, never share a file.
-/

namespace UbServer

open CString Decimal

/-- What the name of a compressed copy is made of: the resource is `dir/fileName`. -/
def cacheName (cwd dir fileName : Bytes) (stAtime : ℤ) : Bytes :=
  cwd ++ bytes "/cache/gzip" ++ (dir ++ [47]) ++ bytes (toString stAtime) ++ bytes "-" ++ fileName ++
    bytes ".gz"

section Names

variable {options : Options} {env env₁ env₂ : ResponseEnv} {cwd dir dir₁ dir₂ path path₁ path₂ : Bytes}
  {fileName fileName₁ fileName₂ gzipPath : Bytes} {stAtime stAtime₁ stAtime₂ : ℤ}

theorem slash_notMem_numeral (n : ℤ) : (47 : UInt8) ∉ bytes (toString n) := by
  intro h
  have hcode := mem_bytes_toString h
  simp at hcode

/-- **Names are read back.** -/
theorem cacheName_inj (h₁ : (47 : UInt8) ∉ fileName₁) (h₂ : (47 : UInt8) ∉ fileName₂)
    (h : cacheName cwd dir₁ fileName₁ stAtime₁ = cacheName cwd dir₂ fileName₂ stAtime₂) :
    dir₁ = dir₂ ∧ fileName₁ = fileName₂ ∧ stAtime₁ = stAtime₂ := by
  have hnone : ∀ (t : ℤ) (name : Bytes), (47 : UInt8) ∉ name →
      47 ∉ bytes (toString t) ++ (bytes "-" ++ (name ++ bytes ".gz")) := by
    intro t name hname
    simp only [List.mem_append, not_or]
    exact ⟨slash_notMem_numeral t, by decide +kernel, hname, by decide +kernel⟩
  unfold cacheName at h
  simp only [List.append_assoc, List.append_cancel_left_eq, List.singleton_append] at h
  -- the directory ends at the last slash, the time at the first dash that is not its sign
  obtain ⟨hdir, hrest⟩ := append_last_sep_inj (hnone _ _ h₁) (hnone _ _ h₂) h
  have hdash : bytes "-" = [UInt8.ofNat '-'.toNat] := by decide +kernel
  rw [bytes_toString, bytes_toString, hdash, List.singleton_append, List.singleton_append] at hrest
  obtain ⟨htime, hname⟩ := numeral_sep_inj leftInvOn_ascii hrest
  exact ⟨hdir, List.append_cancel_right hname, htime⟩

theorem gzipPathOf_rooted (hname : (47 : UInt8) ∉ fileName)
    (h : gzipPathOf options env (options.htmlDir ++ (dir ++ 47 :: fileName)) stAtime =
      some gzipPath) :
    ∃ cwd, env.cwd = some cwd ∧ gzipPath = cacheName cwd dir fileName stAtime := by
  have hslash : strrchr (options.htmlDir ++ (dir ++ 47 :: fileName)) 47 =
      some (options.htmlDir ++ dir).length := by
    rw [← List.append_assoc]
    exact strrchr_append_cons hname _
  have hfile : (options.htmlDir ++ (dir ++ 47 :: fileName)).drop
      ((options.htmlDir ++ dir).length + 1) = fileName := by
    rw [← List.append_assoc, ← List.drop_drop, List.drop_left]
    rfl
  have hrelative : (options.htmlDir ++ (dir ++ 47 :: fileName)).drop options.htmlDir.length =
      dir ++ 47 :: fileName := List.drop_left
  have hdir : (dir ++ 47 :: fileName).take ((dir ++ 47 :: fileName).length - fileName.length) =
      dir ++ [47] := by
    have hlen : (dir ++ 47 :: fileName).length - fileName.length = (dir ++ [47]).length := by
      simp only [List.length_append, List.length_cons, List.length_nil]
      omega
    have hcut : dir ++ 47 :: fileName = dir ++ [47] ++ fileName := by simp
    rw [hlen, hcut, List.take_left]
  unfold gzipPathOf at h
  obtain ⟨slash, hs, h⟩ := Option.bind_eq_some_iff.mp h
  obtain rfl := Option.some.inj (hslash.symm.trans hs)
  rw [hfile, hrelative] at h
  obtain ⟨cwd, hcwd, h⟩ := Option.bind_eq_some_iff.mp h
  obtain ⟨relative, hfits, h⟩ := Option.bind_eq_some_iff.mp h
  obtain ⟨rfl, -⟩ := fits_inv hfits
  refine ⟨cwd, hcwd, ?_⟩
  dsimp only at h
  rw [hdir] at h
  split at h
  · obtain ⟨made, -, h⟩ := Option.bind_eq_some_iff.mp h
    split at h
    · exact (Option.some.inj h).symm
    · cases h
  · cases h

theorem slash_mem_realPath (h : path.head? = some 47) : (47 : UInt8) ∈ realPath path := by
  cases path with
  | nil => cases h
  | cons a rest =>
    obtain rfl := Option.some.inj h
    unfold realPath
    dsimp only
    split
    · decide +kernel
    · rw [List.takeWhile_cons_of_pos (by decide)]
      exact List.mem_cons_self

/-- **Cache names are unambiguous.** For one working directory and one document root, two request
paths that begin with a slash get the same name only for the same resource and the same access
time. -/
theorem gzipPath_unambiguous (hcwd : env₁.cwd = env₂.cwd)
    (h₁ : path₁.head? = some 47) (h₂ : path₂.head? = some 47)
    (hgzip₁ : gzipPathOf options env₁ (absolutePathOf options path₁) stAtime₁ = some gzipPath)
    (hgzip₂ : gzipPathOf options env₂ (absolutePathOf options path₂) stAtime₂ = some gzipPath) :
    (absolutePathOf options path₁).drop options.htmlDir.length =
      (absolutePathOf options path₂).drop options.htmlDir.length ∧ stAtime₁ = stAtime₂ := by
  obtain ⟨dir₁, fileName₁, hpath₁, hname₁⟩ := exists_last (slash_mem_realPath h₁)
  obtain ⟨dir₂, fileName₂, hpath₂, hname₂⟩ := exists_last (slash_mem_realPath h₂)
  unfold absolutePathOf at *
  rw [hpath₁] at hgzip₁ ⊢
  rw [hpath₂] at hgzip₂ ⊢
  obtain ⟨cwd, hc₁, rfl⟩ := gzipPathOf_rooted hname₁ hgzip₁
  obtain ⟨cwd', hc₂, hcache⟩ := gzipPathOf_rooted hname₂ hgzip₂
  obtain rfl := Option.some.inj (hc₁.symm.trans (hcwd.trans hc₂))
  obtain ⟨rfl, rfl, rfl⟩ := cacheName_inj hname₁ hname₂ hcache
  exact ⟨rfl, rfl⟩

end Names

/-- Two requests for one page, with different queries and the same access time before the epoch. -/
theorem gzipPath_unambiguous_query :
    (absolutePathOf wwwOptions (bytes "/a-1.gz/b?x")).drop wwwOptions.htmlDir.length =
      (absolutePathOf wwwOptions (bytes "/a-1.gz/b?y")).drop wwwOptions.htmlDir.length ∧
      (-5 : ℤ) = -5 :=
  gzipPath_unambiguous rfl (by decide +kernel) (by decide +kernel)
    (show gzipPathOf wwwOptions localResponseEnv _ _ =
      some (bytes "/srv/cache/gzip/a-1.gz/-5-b.gz") by decide +kernel)
    (show gzipPathOf wwwOptions localResponseEnv _ _ = _ by decide +kernel)

end UbServer
